import Backpack.Shell.Commands
import Backpack.Shell.RegexTheorems
import Backpack.Loading

/-!
# Loading kernel modules

`modprobe_module` inserts the dependencies of a module from left to right, as `modules.dep` lists
them, and the module itself last. Each file is tried once. What the kernel makes of an `insmod` is
decided by the direct dependencies.
-/

namespace Backpack.Boot

open Shell Loading

/-! ## The function -/

/-- The module files that are loaded, in their order, the contents of `/tmp/_lsmod`, the variable
`err`, which all functions share, and what was printed. -/
structure Kmods where
  loaded : List Text
  log : Text
  err : Option ℕ
  printed : Text
deriving DecidableEq

/-- `TMPMOD` -/
def tmpmod (mod : Text) : Text := "/tmp/".toList ++ basename [mod, ".gz".toList]

/-- `\/$1\.ko(\.gz)?:` -/
def depPattern (name : Text) : Text := "\\/".toList ++ name ++ "\\.ko(\\.gz)?:".toList

/-- `MODULEDEPS`, where `dep` is in `modules.dep`. -/
def moduledeps (name dep : Text) : Text :=
  captured (unlines (grep .extended (depPattern name) dep))

/-- The files that the loop goes through. -/
def modprobeFiles (name dep : Text) : List Text :=
  let deps := fileLines (echo (words (moduledeps name dep)))
  words (captured (unlines (deps.map (cutRest ':')))) ++
    words (captured (unlines (deps.map (cutFirst ':'))))

/-- One pass of the loop. A failed `insmod` has the status 1. -/
def insmodFile (direct : Text → List Text) (s : Kmods) (mod : Text) : Kmods :=
  if noOutput (grep .extended ('^' :: (tmpmod mod ++ ['$'])) s.log) then
    if direct mod ⊆ s.loaded then
      { s with loaded := s.loaded ++ [mod], log := s.log ++ echo [tmpmod mod], err := some 0 }
    else { s with err := some 1 }
  else s

def insertError (name : Text) (err : ℕ) : Text :=
  "        !!! Error inserting module ".toList ++ name ++ " (".toList ++ Nat.toDigits 10 err ++
    ")\n".toList

/-- `modprobe_module name`, with its status. -/
def modprobeModule (direct : Text → List Text) (dep name : Text) (s : Kmods) : Kmods × ℕ :=
  if name = [] then (s, 1)
  else
    let s := (modprobeFiles name dep).foldl (insmodFile direct) s
    match s.err with
    -- without a number the test fails, and `return` passes the status of the `if` on
    | none => (s, 0)
    | some err =>
      (if err ≠ 0 then { s with printed := s.printed ++ insertError name err } else s, err)

/-! ## Files of `depmod` -/

def moduleChar (c : Char) : Bool := c.isAlphanum || c == '-' || c == '_'

def modulePathChar (c : Char) : Bool := moduleChar c || c == '.' || c == '/'

/-- `mod` is the file of the module `name`, compressed or not. -/
def IsModuleFile (name mod : Text) : Prop :=
  (name ≠ [] ∧ ∀ c ∈ name, moduleChar c = true) ∧
    ∃ dir, dir.head? = some '/' ∧ (∀ c ∈ dir, modulePathChar c = true) ∧
      (mod = dir ++ '/' :: (name ++ ".ko".toList) ∨ mod = dir ++ '/' :: (name ++ ".ko.gz".toList))

/-- What `depmod` writes: for each module file all that it needs, where what needs something stands
to the left of it. -/
structure DepFile where
  direct : Text → List Text
  name : Text → Text
  entries : List (Text × List Text)
  file : ∀ e ∈ entries, IsModuleFile (name e.1) e.1
  unique : (entries.map fun e => name e.1).Nodup
  known : ∀ e ∈ entries, ∀ d ∈ e.2, d ∈ entries.map Prod.fst
  transitive : ∀ e ∈ entries, ∀ d, d ∈ e.2 ↔ Needs direct e.1 d
  order : ∀ e ∈ entries, Acyclic direct e.1 → e.2.Pairwise fun a b => ¬ Needs direct b a

namespace DepFile

/-- The line of a module. -/
def line (e : Text × List Text) : Text := e.1 ++ ':' :: e.2.flatMap (' ' :: ·)

/-- The contents of `modules.dep`. -/
def text (dep : DepFile) : Text := unlines (dep.entries.map line)

end DepFile

/-- The loaded modules are known and logged. -/
structure Logged (dep : DepFile) (s : Kmods) : Prop where
  known : ∀ mod ∈ s.loaded, mod ∈ dep.entries.map Prod.fst
  logged : s.log = unlines (s.loaded.map tmpmod)

/-- They also have all that they need. -/
structure Loaded (dep : DepFile) (s : Kmods) : Prop extends Logged dep s where
  closed : Closed dep.direct s.loaded

/-! ## Names and files -/

theorem moduleChar_ne {c : Char} (h : moduleChar c = true) : c ≠ '.' ∧ c ≠ '/' := by
  constructor <;> rintro rfl <;> exact absurd h (by decide)

/-- No character of a module's name is special in a pattern. -/
theorem moduleChar_ordinary {c : Char} (h : moduleChar c = true) :
    Flavour.extended.ordinary c = true := by
  simp only [moduleChar, Bool.or_eq_true, beq_iff_eq] at h
  rcases h with (h | rfl) | rfl
  · exact ordinary_of_isAlphanum h
  · rfl
  · rfl

namespace IsModuleFile

variable {name mod : Text} (h : IsModuleFile name mod)
include h

theorem name_no_dot : '.' ∉ name := fun hc => (moduleChar_ne (h.1.2 _ hc)).1 rfl

theorem name_no_slash : '/' ∉ name := fun hc => (moduleChar_ne (h.1.2 _ hc)).2 rfl

theorem head : mod.head? = some '/' := by
  obtain ⟨-, dir, hdir, -, rfl | rfl⟩ := h
  · rw [List.head?_append, hdir, Option.some_or]
  · rw [List.head?_append, hdir, Option.some_or]

theorem pathChars : ∀ c ∈ mod, modulePathChar c = true := by
  have hname : ∀ c ∈ name, modulePathChar c = true := by
    intro c hc
    rw [modulePathChar, h.1.2 c hc]
    rfl
  obtain ⟨-, dir, -, hdir, hmod⟩ := h
  have hend : ∀ suffix : Text, (∀ c ∈ suffix, modulePathChar c = true) →
      ∀ c ∈ dir ++ '/' :: (name ++ suffix), modulePathChar c = true := by
    intro suffix hsuffix c hc
    rcases List.mem_append.mp hc with hc | hc
    · exact hdir c hc
    rcases List.mem_cons.mp hc with rfl | hc
    · rfl
    rcases List.mem_append.mp hc with hc | hc
    · exact hname c hc
    · exact hsuffix c hc
  rcases hmod with rfl | rfl
  · exact hend _ (by decide)
  · exact hend _ (by decide)

theorem noBlank : NoBlank mod := by
  intro c hc
  have hblank : ∀ d, isBlank d = true → modulePathChar d = false := by
    intro d hd
    simp only [isBlank, Bool.or_eq_true, beq_iff_eq] at hd
    rcases hd with (rfl | rfl) | rfl <;> rfl
  by_contra hc'
  have hfalse := hblank c (by simpa using hc')
  exact absurd (h.pathChars c hc) (by simp [hfalse])

theorem ne_nil : mod ≠ [] := by
  rintro rfl
  exact absurd h.head (by simp)

theorem colon_not_mem : ':' ∉ mod := fun hc => absurd (h.pathChars _ hc) (by decide)

/-- A module's file ends in .ko or in .ko.gz. -/
theorem lastComponent_eq : lastComponent mod = name ++ ".ko".toList ∨
    lastComponent mod = name ++ ".ko.gz".toList := by
  have hslash := h.name_no_slash
  obtain ⟨-, dir, -, -, rfl | rfl⟩ := h
  · refine Or.inl (lastComponent_append ?_ (by simp))
    simpa using hslash
  · refine Or.inr (lastComponent_append ?_ (by simp))
    simpa using hslash

/-- `basename $MODULE .gz` -/
theorem tmpmod_eq : tmpmod mod = "/tmp/".toList ++ (name ++ ".ko".toList) := by
  have hoption : isOption mod = false := by
    rw [isOption, h.head]
    rfl
  have hne : name ++ ".ko".toList ≠ [] := by simp
  rw [tmpmod, basename, hoption, if_neg Bool.false_ne_true]
  congr 1
  rcases h.lastComponent_eq with hlast | hlast
  · rw [hlast, stripSuffix, if_neg]
    rintro ⟨hsuffix, -⟩
    have hreverse := List.reverse_prefix.mpr hsuffix
    rw [List.reverse_append] at hreverse
    exact absurd (List.cons_prefix_cons.mp hreverse).1 (by decide)
  · have hsplit : name ++ ".ko.gz".toList = (name ++ ".ko".toList) ++ ".gz".toList := by simp
    rw [hlast, hsplit, stripSuffix_append hne]

end IsModuleFile

/-! ## The line of a module -/

/-- A separator that stands nowhere else splits in one way. -/
theorem eq_of_append_cons {α : Type} {a : α} {s t u v : List α} (hs : a ∉ s) (ht : a ∉ t)
    (h : u ++ a :: v = s ++ a :: t) : u = s ∧ v = t := by
  rcases List.append_eq_append_iff.mp h with ⟨w, rfl, hw⟩ | ⟨w, rfl, hw⟩
  · cases w with
    | nil => simpa using hw
    | cons b w =>
      obtain ⟨rfl, -⟩ := List.cons.inj hw
      exact (hs (by simp)).elim
  · cases w with
    | nil => simpa using hw.symm
    | cons b w =>
      obtain ⟨rfl, rfl⟩ := List.cons.inj hw
      exact (ht (by simp)).elim

/-- The expression of `\/name\.ko(\.gz)?:`. -/
def depItems (name : Text) : List Re :=
  ('/' :: (name ++ ".ko".toList)).map Re.lit ++ [.alt (Re.seqAll (".gz".toList.map Re.lit)) .eps,
    Re.lit ':']

/-- The pattern for the line of a module, as an expression. -/
theorem parseRe_depPattern {name : Text} (h : ∀ c ∈ name, moduleChar c = true) :
    parseRe .extended (depPattern name) = some (Re.seqAll (depItems name)) := by
  have hend : ∀ prev, lex .extended 0 prev "\\.ko(\\.gz)?:".toList = some
      ((".ko".toList.map Re.lit).map Tok.atom ++
        Tok.lpar :: ((".gz".toList.map Re.lit).map Tok.atom ++
          [Tok.rpar, .opt, .atom (.lit ':')])) := by
    intro prev
    cases prev <;> rfl
  have hlex : lex .extended 0 .opening (depPattern name) = some
      ((('/' :: (name ++ ".ko".toList)).map Re.lit).map Tok.atom ++
        Tok.lpar :: ((".gz".toList.map Re.lit).map Tok.atom ++
          [Tok.rpar, .opt, .atom (.lit ':')])) := by
    have hpattern : depPattern name = '\\' :: '/' :: (name ++ "\\.ko(\\.gz)?:".toList) := by
      simp [depPattern]
    rw [hpattern, lex_escaped rfl, lex_ordinary fun c hc => moduleChar_ordinary (h c hc), hend]
    simp
  have hgroup : ∀ f : Frame, (Tok.lpar :: ((".gz".toList.map Re.lit).map Tok.atom ++
      [Tok.rpar, .opt, .atom (.lit ':')])).foldlM parseTok [f] = some [{ f with
        cur := Re.lit ':' :: .alt (Re.seqAll (".gz".toList.map Re.lit)) .eps :: f.cur }] :=
    fun _ => rfl
  rw [parseRe, hlex]
  simp only [Option.bind_eq_bind, Option.bind_some, List.foldlM_append, foldlM_atoms, hgroup]
  simp [Frame.close, Re.altAll, depItems]

/-- `egrep` finds the name in front of the colon of a line. -/
theorem grepLine_dep {name mod name' : Text} (hname : ∀ c ∈ name, moduleChar c = true)
    (hmod : IsModuleFile name' mod) {deps : List Text} (hdeps : ∀ d ∈ deps, ':' ∉ d) :
    grepLine .extended (depPattern name) (DepFile.line (mod, deps)) = true ↔ name' = name := by
  have hcolon := hmod.colon_not_mem
  have hrest : ':' ∉ deps.flatMap (' ' :: ·) := by
    intro hc
    obtain ⟨d, hd, hc⟩ := List.mem_flatMap.mp hc
    exact hdeps d hd (by simpa using hc)
  have hdot : '.' ∉ name := fun hc => (moduleChar_ne (hname _ hc)).1 rfl
  have hslash : '/' ∉ name := fun hc => (moduleChar_ne (hname _ hc)).2 rfl
  have htake : ∀ {v w : Text}, '.' ∉ v → (v ++ '.' :: w).takeWhile (· != '.') = v := by
    intro v w hv
    exact cutFirst_append hv
  rw [grepLine, parseRe_depPattern hname, DepFile.line]
  simp only [Re.found_iff, depItems, Re.mem_rests_lits, Re.mem_rests_cons, Re.mem_rests_nil,
    Re.mem_rests_alt, Re.mem_rests_eps, Re.mem_rests_lit, Re.mem_rests_word]
  constructor
  · rintro ⟨pre, _, w, hline, u, rfl, _, hu, _, rfl, rfl⟩
    -- what stands in front of the colon is the file
    have hfile : ∃ gz : Text, '/' ∉ gz ∧ mod = pre ++ '/' :: (name ++ '.' :: gz) := by
      rcases hu with rfl | rfl
      · have hline' : (pre ++ '/' :: (name ++ '.' :: "ko.gz".toList)) ++ ':' :: w =
            mod ++ ':' :: deps.flatMap (' ' :: ·) := by
          rw [hline]
          simp
        exact ⟨"ko.gz".toList, by decide, (eq_of_append_cons hcolon hrest hline').1.symm⟩
      · have hline' : (pre ++ '/' :: (name ++ '.' :: "ko".toList)) ++ ':' :: w =
            mod ++ ':' :: deps.flatMap (' ' :: ·) := by
          rw [hline]
          simp
        exact ⟨"ko".toList, by decide, (eq_of_append_cons hcolon hrest hline').1.symm⟩
    obtain ⟨gz, hgz, hfile⟩ := hfile
    have hlast : lastComponent mod = name ++ '.' :: gz := by
      rw [hfile]
      refine lastComponent_append ?_ (by simp)
      simp [hslash, hgz]
    rcases hmod.lastComponent_eq with hlast' | hlast'
    · rw [← htake hmod.name_no_dot, ← htake hdot, ← hlast, hlast']
      rfl
    · rw [← htake hmod.name_no_dot, ← htake hdot, ← hlast, hlast']
      rfl
  · rintro rfl
    obtain ⟨-, dir, -, -, rfl | rfl⟩ := hmod
    · exact ⟨dir, _, deps.flatMap (' ' :: ·), by simp, _, rfl, _, Or.inr rfl, _, rfl, rfl⟩
    · exact ⟨dir, _, deps.flatMap (' ' :: ·), by simp, _, rfl, _, Or.inl rfl, _, rfl, rfl⟩

/-! ## The files of the loop -/

namespace DepFile

variable (dep : DepFile)

/-- Every entry is the file of a module. -/
theorem isModuleFile {mod : Text} (h : mod ∈ dep.entries.map Prod.fst) :
    IsModuleFile (dep.name mod) mod := by
  obtain ⟨e, he, rfl⟩ := List.mem_map.mp h
  exact dep.file e he

/-- Files of one name are the same file. -/
theorem eq_of_name_eq {mod mod' : Text} (h : mod ∈ dep.entries.map Prod.fst)
    (h' : mod' ∈ dep.entries.map Prod.fst) (hname : dep.name mod = dep.name mod') :
    mod = mod' := by
  obtain ⟨e, he, rfl⟩ := List.mem_map.mp h
  obtain ⟨e', he', rfl⟩ := List.mem_map.mp h'
  rw [List.inj_on_of_nodup_map dep.unique he he' hname]

/-- A file that one depends on is a module's. -/
theorem isModuleFile_of_mem_deps {e : Text × List Text} (he : e ∈ dep.entries) {d : Text}
    (hd : d ∈ e.2) : IsModuleFile (dep.name d) d :=
  dep.isModuleFile (dep.known e he d hd)

/-- A line has the module with its colon, and the modules it depends on. -/
theorem line_eq (e : Text × List Text) : line e = joinWords ((e.1 ++ [':']) :: e.2) := by
  rw [joinWords_cons, line]
  simp

/-- The parts of a line are words. -/
theorem word_of_mem {e : Text × List Text} (he : e ∈ dep.entries) :
    ∀ w ∈ (e.1 ++ [':']) :: e.2, NoBlank w ∧ w ≠ [] := by
  rw [List.forall_mem_cons]
  refine ⟨⟨?_, by simp⟩, fun d hd => ?_⟩
  · intro c hc
    rcases List.mem_append.mp hc with hc | hc
    · exact (dep.file e he).noBlank c hc
    · rw [List.mem_singleton.mp hc]
      rfl
  · have hfile := dep.isModuleFile_of_mem_deps he hd
    exact ⟨hfile.noBlank, hfile.ne_nil⟩

/-- A line has no newline in it. -/
theorem newline_not_mem_line {e : Text × List Text} (he : e ∈ dep.entries) : '\n' ∉ line e := by
  rw [line_eq]
  exact newline_not_mem_joinWords fun w hw hc => absurd ((dep.word_of_mem he w hw).1 _ hc) (by decide)

/-- `egrep` prints one line. -/
theorem grep_dep {mod : Text} {deps : List Text} (he : (mod, deps) ∈ dep.entries) :
    grep .extended (depPattern (dep.name mod)) dep.text = [line (mod, deps)] := by
  have hname := (dep.file _ he).1.2
  have hlines : fileLines dep.text = dep.entries.map line := by
    refine fileLines_unlines fun l hl => ?_
    obtain ⟨e, he, rfl⟩ := List.mem_map.mp hl
    exact dep.newline_not_mem_line he
  have hgrep : ∀ e ∈ dep.entries,
      grepLine .extended (depPattern (dep.name mod)) (line e) =
        decide (dep.name e.1 = dep.name mod) := by
    intro e he'
    rw [Bool.eq_iff_iff, decide_eq_true_eq]
    exact grepLine_dep hname (dep.file e he')
      fun d hd => (dep.isModuleFile_of_mem_deps he' hd).colon_not_mem
  obtain ⟨pre, post, hsplit⟩ := List.append_of_mem he
  have hunique := dep.unique
  rw [hsplit, List.map_append, List.map_cons, List.nodup_middle, List.nodup_cons] at hunique
  have hother : ∀ e ∈ pre ++ post, ¬ dep.name e.1 = dep.name mod := by
    intro e he' heq
    refine hunique.1 ?_
    rw [← List.map_append, ← heq]
    exact List.mem_map_of_mem he'
  have hnone : ∀ es : List (Text × List Text), es ⊆ pre ++ post → es ⊆ dep.entries →
      (es.map line).filter (grepLine .extended (depPattern (dep.name mod))) = [] := by
    intro es hes hentries
    rw [List.filter_eq_nil_iff]
    intro l hl
    obtain ⟨e, he', rfl⟩ := List.mem_map.mp hl
    rw [hgrep e (hentries he')]
    simpa using hother e (hes he')
  rw [grep, hlines]
  have hself : grepLine .extended (depPattern (dep.name mod)) (line (mod, deps)) = true := by
    rw [hgrep _ he]
    simp
  rw [hsplit, List.map_append, List.map_cons, List.filter_append, List.filter_cons_of_pos hself,
    hnone pre (by simp) (by simp [hsplit]), hnone post (by simp) (by simp [hsplit])]
  rfl

/-- The loop goes through the dependencies of a module from left to right and ends with the
module. -/
theorem modprobeFiles_eq {mod : Text} {deps : List Text} (he : (mod, deps) ∈ dep.entries) :
    modprobeFiles (dep.name mod) dep.text = deps ++ [mod] := by
  have hfile := dep.file _ he
  have hwords := dep.word_of_mem he
  have hline := dep.newline_not_mem_line he
  have hcaptured : moduledeps (dep.name mod) dep.text = line (mod, deps) := by
    rw [moduledeps, dep.grep_dep he, captured_unlines_singleton hline]
  have hecho : echo (words (line (mod, deps))) = line (mod, deps) ++ ['\n'] := by
    have hslash : '/' ∈ mod ++ [':'] := List.mem_append_left _ (List.mem_of_head? hfile.head)
    rw [line_eq, words_joinWords hwords, echo_cons (isEchoOption_of_slash hslash)]
  have hcut : ∀ t : Text, '\n' ∉ t → captured (unlines [t]) = t := fun t => captured_unlines_singleton
  have hrest : '\n' ∉ deps.flatMap (' ' :: ·) := fun hc => hline (by simp [line, hc])
  have hfirst : '\n' ∉ mod := fun hc => hline (by simp [line, hc])
  rw [modprobeFiles, hcaptured, hecho, fileLines_line hline]
  simp only [List.map_cons, List.map_nil]
  rw [line, cutRest_append hfile.colon_not_mem, cutFirst_append hfile.colon_not_mem, hcut _ hrest,
    hcut _ hfirst, words_flatMap_space fun w hw => hwords w (List.mem_cons_of_mem _ hw),
    words_of_noBlank hfile.noBlank hfile.ne_nil]

end DepFile

/-! ## The loop -/

section

variable {dep : DepFile} {s : Kmods} {mod : Text}

theorem tmpmod_no_newline (hmod : mod ∈ dep.entries.map Prod.fst) : '\n' ∉ tmpmod mod := by
  have hfile := dep.isModuleFile hmod
  rw [hfile.tmpmod_eq]
  intro hc
  rcases List.mem_append.mp hc with hc | hc
  · exact absurd hc (by decide)
  rcases List.mem_append.mp hc with hc | hc
  · exact absurd (hfile.1.2 _ hc) (by decide)
  · exact absurd hc (by decide)

/-- Only the entry of the module itself is found in the log. -/
theorem grepLine_tmpmod {mod' : Text} (hmod : mod ∈ dep.entries.map Prod.fst)
    (hmod' : mod' ∈ dep.entries.map Prod.fst) :
    grepLine .extended ('^' :: (tmpmod mod ++ ['$'])) (tmpmod mod') = true ↔ mod' = mod := by
  have hfile := dep.isModuleFile hmod
  have hfile' := dep.isModuleFile hmod'
  have hchars : ∀ c ∈ tmpmod mod, Flavour.extended.ordinary c = true ∨ c = '.' := by
    rw [hfile.tmpmod_eq]
    intro c hc
    rcases List.mem_append.mp hc with hc | hc
    · have hall : ∀ d ∈ "/tmp/".toList, Flavour.extended.ordinary d = true ∨ d = '.' := by decide
      exact hall c hc
    rcases List.mem_append.mp hc with hc | hc
    · exact Or.inl (moduleChar_ordinary (hfile.1.2 c hc))
    · have hall : ∀ d ∈ ".ko".toList, Flavour.extended.ordinary d = true ∨ d = '.' := by decide
      exact hall c hc
  rw [grepLine_extended_dots hchars]
  constructor
  · intro h
    have hlen := dotMatch_length h
    rw [hfile.tmpmod_eq, hfile'.tmpmod_eq] at h hlen
    have hlen' : (dep.name mod).length = (dep.name mod').length := by simpa using hlen
    rw [dotMatch_append rfl, dotMatch_append hlen', Bool.and_eq_true, Bool.and_eq_true] at h
    exact dep.eq_of_name_eq hmod' hmod ((dotMatch_eq_true_iff hfile.name_no_dot).mp h.2.1)
  · rintro rfl
    exact dotMatch_self _

/-- The log tells whether a module was loaded. -/
theorem noOutput_log_iff (hs : Logged dep s) (hmod : mod ∈ dep.entries.map Prod.fst) :
    noOutput (grep .extended ('^' :: (tmpmod mod ++ ['$'])) s.log) = true ↔ mod ∉ s.loaded := by
  have hlines : fileLines s.log = s.loaded.map tmpmod := by
    rw [hs.logged]
    refine fileLines_unlines fun l hl => ?_
    obtain ⟨m, hm, rfl⟩ := List.mem_map.mp hl
    exact tmpmod_no_newline (hs.known m hm)
  rw [← not_iff_not, Bool.not_eq_true, not_not, noOutput_eq_false_iff, grep, hlines]
  simp only [List.mem_filter, List.mem_map]
  constructor
  · rintro ⟨_, ⟨⟨m, hm, rfl⟩, hgrep⟩, -⟩
    exact (grepLine_tmpmod hmod (hs.known m hm)).mp hgrep ▸ hm
  · intro hm
    refine ⟨tmpmod mod, ⟨⟨mod, hm, rfl⟩, (grepLine_tmpmod hmod hmod).mpr rfl⟩, ?_⟩
    rw [(dep.isModuleFile hmod).tmpmod_eq]
    simp

/-- One pass of the loop is one attempt. -/
theorem insmodFile_eq (hs : Logged dep s) (hmod : mod ∈ dep.entries.map Prod.fst) :
    Logged dep (insmodFile dep.direct s mod) ∧
    (insmodFile dep.direct s mod).loaded = attempt dep.direct s.loaded mod ∧
    (insmodFile dep.direct s mod).err =
      if mod ∈ s.loaded then s.err else some (if dep.direct mod ⊆ s.loaded then 0 else 1) := by
  unfold insmodFile
  by_cases hloaded : mod ∈ s.loaded
  · rw [if_neg (by rw [noOutput_log_iff hs hmod]; exact not_not.mpr hloaded)]
    exact ⟨hs, (attempt_of_mem hloaded).symm, (if_pos hloaded).symm⟩
  · rw [if_pos ((noOutput_log_iff hs hmod).mpr hloaded), if_neg hloaded]
    by_cases hneeds : dep.direct mod ⊆ s.loaded
    · rw [if_pos hneeds, if_pos hneeds, attempt, if_pos ⟨hloaded, hneeds⟩]
      refine ⟨⟨?_, ?_⟩, rfl, rfl⟩
      · intro m hm
        rcases List.mem_append.mp hm with hm | hm
        · exact hs.known m hm
        · exact List.mem_singleton.mp hm ▸ hmod
      · have hslash : '/' ∈ tmpmod mod := by
          rw [(dep.isModuleFile hmod).tmpmod_eq]
          simp
        rw [hs.logged, List.map_append, unlines_append, echo_singleton (isEchoOption_of_slash hslash)]
        simp [unlines]
    · rw [if_neg hneeds, if_neg hneeds, attempt, if_neg fun h => hneeds h.2]
      exact ⟨⟨hs.known, hs.logged⟩, rfl, rfl⟩

/-- A loaded module is not tried again. -/
theorem insmodFile_of_mem (hs : Logged dep s) (hmod : mod ∈ s.loaded) :
    insmodFile dep.direct s mod = s := by
  rw [insmodFile, if_neg]
  rw [noOutput_log_iff hs (hs.known mod hmod)]
  exact not_not.mpr hmod

/-- Nor are modules that all are loaded. -/
theorem foldl_insmodFile_of_subset {mods : List Text} (hs : Logged dep s) (hmods : mods ⊆ s.loaded) :
    mods.foldl (insmodFile dep.direct) s = s := by
  induction mods with
  | nil => rfl
  | cons mod mods ih =>
    rw [List.cons_subset] at hmods
    rw [List.foldl_cons, insmodFile_of_mem hs hmods.1, ih hmods.2]

/-- The loop is a pass over its files. -/
theorem foldl_insmodFile_eq {mods : List Text} (hs : Logged dep s)
    (hmods : ∀ mod ∈ mods, mod ∈ dep.entries.map Prod.fst) :
    Logged dep (mods.foldl (insmodFile dep.direct) s) ∧
    (mods.foldl (insmodFile dep.direct) s).loaded = onePass dep.direct s.loaded mods := by
  induction mods generalizing s with
  | nil => exact ⟨hs, rfl⟩
  | cons mod mods ih =>
    rw [List.forall_mem_cons] at hmods
    obtain ⟨hlogged, hloaded, -⟩ := insmodFile_eq hs hmods.1
    obtain ⟨hlogged', hloaded'⟩ := ih hlogged hmods.2
    refine ⟨hlogged', ?_⟩
    rw [List.foldl_cons, hloaded', hloaded]
    rfl

/-! ## Calls that load everything -/

/-- What a call is expected to do. -/
structure Modprobed (dep : DepFile) (mod : Text) (s : Kmods) (r : Kmods × ℕ) : Prop where
  loads : ∀ m, m = mod ∨ Needs dep.direct mod m → m ∈ r.1.loaded
  keeps : s.loaded <+: r.1.loaded
  order : ∀ pre m post, r.1.loaded = pre ++ m :: post → s.loaded.length ≤ pre.length →
    m ∉ pre ∧ ∀ d, Needs dep.direct m d → d ∈ pre
  status : r.2 = 0

/-- `modprobe_module` tries the dependencies once in their order, and then the module. -/
theorem modprobeModule_eq {deps : List Text} (he : (mod, deps) ∈ dep.entries) (hs : Logged dep s) :
    (modprobeModule dep.direct dep.text (dep.name mod) s).1.loaded =
      attempt dep.direct (onePass dep.direct s.loaded deps) mod ∧
    (modprobeModule dep.direct dep.text (dep.name mod) s).2 =
      (((deps ++ [mod]).foldl (insmodFile dep.direct) s).err).getD 0 := by
  have hmods : ∀ m ∈ deps ++ [mod], m ∈ dep.entries.map Prod.fst := by
    intro m hm
    rcases List.mem_append.mp hm with hm | hm
    · exact dep.known _ he m hm
    · exact List.mem_singleton.mp hm ▸ List.mem_map_of_mem he
  have hloaded : ((deps ++ [mod]).foldl (insmodFile dep.direct) s).loaded =
      attempt dep.direct (onePass dep.direct s.loaded deps) mod := by
    rw [(foldl_insmodFile_eq hs hmods).2, onePass, List.foldl_append]
    rfl
  rw [modprobeModule, if_neg (dep.file _ he).1.1, dep.modprobeFiles_eq he]
  generalize (deps ++ [mod]).foldl (insmodFile dep.direct) s = s' at hloaded ⊢
  obtain ⟨loaded, log, err, printed⟩ := s'
  cases err with
  | none => exact ⟨hloaded, rfl⟩
  | some err =>
    refine ⟨?_, rfl⟩
    rw [← hloaded]
    dsimp only
    split_ifs <;> rfl

/-- Order and repetition are right whatever is loaded. -/
theorem modprobed_iff {deps : List Text} (he : (mod, deps) ∈ dep.entries) (hs : Loaded dep s) :
    Modprobed dep mod s (modprobeModule dep.direct dep.text (dep.name mod) s) ↔
      (∀ m, m = mod ∨ Needs dep.direct mod m →
        m ∈ attempt dep.direct (onePass dep.direct s.loaded deps) mod) ∧
      (((deps ++ [mod]).foldl (insmodFile dep.direct) s).err).getD 0 = 0 := by
  obtain ⟨hloaded, hstatus⟩ := modprobeModule_eq he hs.toLogged
  have hadded : Added dep.direct s.loaded
      (attempt dep.direct (onePass dep.direct s.loaded deps) mod) :=
    (added_onePass (added_refl _) deps).attempt mod
  rw [← hloaded] at hadded ⊢
  rw [← hstatus]
  refine ⟨fun h => ⟨h.loads, h.status⟩, fun h => ⟨h.1, hadded.keeps, ?_, h.2⟩⟩
  intro pre m post hsplit hlen
  exact ⟨(hadded.once pre m post hsplit hlen).1,
    fun d hd => hadded.mem_of_needs hs.closed hsplit hlen hd⟩

/-- Nothing is done for a module that is loaded, so `err` is what it was. -/
theorem modprobed_iff_of_mem {deps : List Text} (he : (mod, deps) ∈ dep.entries)
    (hs : Loaded dep s) (hmod : mod ∈ s.loaded) :
    Modprobed dep mod s (modprobeModule dep.direct dep.text (dep.name mod) s) ↔
      s.err = none ∨ s.err = some 0 := by
  have hall : ∀ m, m = mod ∨ Needs dep.direct mod m → m ∈ s.loaded := by
    rintro m (rfl | hm)
    · exact hmod
    · exact hs.closed.mem hmod hm
  have hsub : deps ++ [mod] ⊆ s.loaded := by
    intro d hd
    rcases List.mem_append.mp hd with hd | hd
    · exact hall d (Or.inr ((dep.transitive _ he d).mp hd))
    · exact hall d (Or.inl (List.mem_singleton.mp hd))
  have hadded : Added dep.direct s.loaded
      (attempt dep.direct (onePass dep.direct s.loaded deps) mod) :=
    (added_onePass (added_refl _) deps).attempt mod
  rw [modprobed_iff he hs, foldl_insmodFile_of_subset hs.toLogged hsub,
    and_iff_right fun m hm => hadded.keeps.mem (hall m hm)]
  cases s.err with
  | none => simp
  | some err => simp

/-- A module does not depend on itself. -/
theorem not_mem_deps {deps : List Text} (he : (mod, deps) ∈ dep.entries)
    (hacyclic : Acyclic dep.direct mod) : mod ∉ deps :=
  fun h => hacyclic mod (Or.inl rfl) ((dep.transitive _ he mod).mp h)

/-- The files of the line come with the nearest first, so that only those are loaded that need
nothing that is missing. -/
theorem mem_onePass_deps {deps : List Text} (he : (mod, deps) ∈ dep.entries)
    (hacyclic : Acyclic dep.direct mod) (loaded : List Text) (d : Text) :
    d ∈ onePass dep.direct loaded deps ↔ d ∈ loaded ∨ d ∈ deps ∧ dep.direct d ⊆ loaded :=
  mem_onePass_iff ((dep.order _ he hacyclic).imp fun hab h => hab (Relation.TransGen.single h))

/-- The last pass of the loop leaves its own status. -/
theorem err_of_missing {deps : List Text} (he : (mod, deps) ∈ dep.entries) (hs : Logged dep s)
    (hmissing : mod ∉ onePass dep.direct s.loaded deps)
    (hneeds : dep.direct mod ⊆ onePass dep.direct s.loaded deps) :
    ((deps ++ [mod]).foldl (insmodFile dep.direct) s).err = some 0 := by
  obtain ⟨hlogged, hfirst⟩ := foldl_insmodFile_eq hs fun d hd => dep.known _ he d hd
  have herr := (insmodFile_eq hlogged (List.mem_map_of_mem he)).2.2
  rw [hfirst, if_neg hmissing, if_pos hneeds] at herr
  rw [List.foldl_append, List.foldl_cons, List.foldl_nil, herr]

/-- For a module that is not loaded, the one pass does when what is missing needs nothing missing.
-/
theorem modprobed_iff_of_not_mem {deps : List Text} (he : (mod, deps) ∈ dep.entries)
    (hacyclic : Acyclic dep.direct mod) (hs : Loaded dep s) (hmod : mod ∉ s.loaded) :
    Modprobed dep mod s (modprobeModule dep.direct dep.text (dep.name mod) s) ↔
      ∀ d, Needs dep.direct mod d → d ∉ s.loaded → dep.direct d ⊆ s.loaded := by
  have hdeps : ∀ d, d ∈ deps ↔ Needs dep.direct mod d := dep.transitive _ he
  have hnot : mod ∉ deps := not_mem_deps he hacyclic
  have hpass := mem_onePass_deps he hacyclic s.loaded
  have hmissing : mod ∉ onePass dep.direct s.loaded deps := by
    rw [hpass]
    rintro (h | h)
    · exact hmod h
    · exact hnot h.1
  have hne : ∀ d, Needs dep.direct mod d → d ≠ mod := fun d hd h => hnot (h ▸ (hdeps d).mpr hd)
  rw [modprobed_iff he hs]
  constructor
  · rintro ⟨hloads, -⟩ d hd hunloaded
    have hin := hloads d (Or.inr hd)
    rw [mem_attempt_of_ne (hne d hd), hpass] at hin
    exact (hin.resolve_left hunloaded).2
  · intro hcondition
    have hin : ∀ d, Needs dep.direct mod d → d ∈ onePass dep.direct s.loaded deps := by
      intro d hd
      rw [hpass]
      by_cases hd' : d ∈ s.loaded
      · exact Or.inl hd'
      · exact Or.inr ⟨(hdeps d).mpr hd, hcondition d hd hd'⟩
    have hneeds : dep.direct mod ⊆ onePass dep.direct s.loaded deps :=
      fun d hd => hin d (Relation.TransGen.single hd)
    refine ⟨?_, by rw [err_of_missing he hs.toLogged hmissing hneeds]; rfl⟩
    rintro m (rfl | hm)
    · exact (mem_attempt_self hmissing).mpr hneeds
    · exact (mem_attempt_of_ne (hne m hm)).mpr (hin m hm)

/-- A call loads everything exactly when nothing that is missing needs something else that is
missing, and the error of an earlier call is not left over. -/
theorem modprobeModule_iff {deps : List Text} (he : (mod, deps) ∈ dep.entries)
    (hacyclic : Acyclic dep.direct mod) (hs : Loaded dep s) :
    Modprobed dep mod s (modprobeModule dep.direct dep.text (dep.name mod) s) ↔
      (mod ∈ s.loaded → s.err = none ∨ s.err = some 0) ∧
        ∀ d, Needs dep.direct mod d → d ∉ s.loaded → dep.direct d ⊆ s.loaded := by
  by_cases hmod : mod ∈ s.loaded
  · have hall : ∀ d, Needs dep.direct mod d → d ∉ s.loaded → dep.direct d ⊆ s.loaded :=
      fun d hd hunloaded => absurd (hs.closed.mem hmod hd) hunloaded
    rw [modprobed_iff_of_mem he hs hmod, and_iff_left hall]
    exact ⟨fun h _ => h, fun h => h hmod⟩
  · rw [modprobed_iff_of_not_mem he hacyclic hs hmod, and_iff_right fun h => absurd h hmod]

end

/-! ## Three modules in a row -/

def nlsFile : Text := "/lib/modules/kernel/fs/nls/nls_base.ko".toList

def fatFile : Text := "/lib/modules/kernel/fs/fat/fat.ko.gz".toList

def vfatFile : Text := "/lib/modules/kernel/fs/vfat/vfat.ko.gz".toList

def vfatDirect (mod : Text) : List Text :=
  if mod = vfatFile then [fatFile, nlsFile] else if mod = fatFile then [nlsFile] else []

theorem not_needs_nlsFile (d : Text) : ¬ Needs vfatDirect nlsFile d := by
  have hdirect : vfatDirect nlsFile = [] := by decide
  rw [needs_iff, hdirect]
  simp

/-- What fat needs. -/
theorem needs_fatFile (d : Text) : Needs vfatDirect fatFile d ↔ d = nlsFile := by
  have hdirect : vfatDirect fatFile = [nlsFile] := by decide
  rw [needs_iff, hdirect]
  simp [not_needs_nlsFile, eq_comm]

/-- What vfat needs. -/
theorem needs_vfatFile (d : Text) : Needs vfatDirect vfatFile d ↔ d = fatFile ∨ d = nlsFile := by
  have hdirect : vfatDirect vfatFile = [fatFile, nlsFile] := by decide
  rw [needs_iff, hdirect]
  simp only [List.mem_cons, List.not_mem_nil, or_false, exists_eq_or_imp, exists_eq_left,
    not_needs_nlsFile, needs_fatFile]
  constructor
  · rintro ((rfl | rfl) | rfl)
    · exact Or.inl rfl
    · exact Or.inr rfl
    · exact Or.inr rfl
  · rintro (rfl | rfl)
    · exact Or.inl (Or.inl rfl)
    · exact Or.inr rfl

/-- `vfat` needs `fat` and both of them need `nls_base`. -/
def vfatDeps : DepFile where
  direct := vfatDirect
  name mod := stripSuffix ".ko".toList (basename [mod, ".gz".toList])
  entries := [(nlsFile, []), (fatFile, [nlsFile]), (vfatFile, [fatFile, nlsFile])]
  file := by
    intro e he
    rcases List.mem_cons.mp he with rfl | he
    · exact ⟨by decide, "/lib/modules/kernel/fs/nls".toList, by decide, by decide,
        Or.inl (by decide)⟩
    rcases List.mem_cons.mp he with rfl | he
    · exact ⟨by decide, "/lib/modules/kernel/fs/fat".toList, by decide, by decide,
        Or.inr (by decide)⟩
    · rw [List.mem_singleton.mp he]
      exact ⟨by decide, "/lib/modules/kernel/fs/vfat".toList, by decide, by decide,
        Or.inr (by decide)⟩
  unique := by decide
  known := by decide
  transitive := by
    intro e he d
    rcases List.mem_cons.mp he with rfl | he
    · simp [not_needs_nlsFile]
    rcases List.mem_cons.mp he with rfl | he
    · rw [needs_fatFile, List.mem_singleton]
    · rw [List.mem_singleton.mp he, needs_vfatFile]
      simp
  order := by
    intro e he _
    rcases List.mem_cons.mp he with rfl | he
    · exact List.Pairwise.nil
    rcases List.mem_cons.mp he with rfl | he
    · exact List.pairwise_singleton _ _
    · rw [List.mem_singleton.mp he]
      simp [not_needs_nlsFile]

/-- vfat does not need itself. -/
theorem acyclic_vfatFile : Acyclic vfatDirect vfatFile := by
  have hnames : vfatFile ≠ fatFile ∧ vfatFile ≠ nlsFile ∧ fatFile ≠ nlsFile := by decide
  intro b hb
  rw [needs_vfatFile] at hb
  rcases hb with rfl | rfl | rfl
  · rw [needs_vfatFile]
    rintro (h | h)
    · exact hnames.1 h
    · exact hnames.2.1 h
  · rw [needs_fatFile]
    exact hnames.2.2
  · exact not_needs_nlsFile nlsFile

def vfatLine : Text × List Text := (vfatFile, [fatFile, nlsFile])

def nlsLoaded : Kmods := ⟨[nlsFile], "/tmp/nls_base.ko\n".toList, none, []⟩

theorem loaded_nlsLoaded : Loaded vfatDeps nlsLoaded where
  known := by decide
  logged := by decide
  closed := by
    intro a ha
    rw [List.mem_singleton.mp ha]
    have hdirect : vfatDeps.direct nlsFile = [] := by decide
    rw [hdirect]
    exact List.nil_subset _

/-- With `nls_base` there, both others are loaded. -/
theorem modprobeModule_vfat : vfatLine ∈ vfatDeps.entries ∧ Acyclic vfatDirect vfatFile ∧
    Loaded vfatDeps nlsLoaded ∧
    Modprobed vfatDeps vfatFile nlsLoaded
      (modprobeModule vfatDirect vfatDeps.text (vfatDeps.name vfatFile) nlsLoaded) := by
  have hline : vfatLine ∈ vfatDeps.entries := by decide
  refine ⟨hline, acyclic_vfatFile, loaded_nlsLoaded,
    (modprobeModule_iff hline acyclic_vfatFile loaded_nlsLoaded).mpr ⟨fun _ => Or.inl rfl, ?_⟩⟩
  intro d hd hmissing
  rcases (needs_vfatFile d).mp hd with rfl | rfl
  · decide
  · exact absurd (show nlsFile ∈ nlsLoaded.loaded by decide) hmissing

/-- From nothing, `fat` is tried before `nls_base`, which it needs. -/
theorem not_modprobeModule : ¬ ∀ (dep : DepFile) (mod : Text) (deps : List Text) (s : Kmods),
    (mod, deps) ∈ dep.entries → Acyclic dep.direct mod → Loaded dep s →
      Modprobed dep mod s (modprobeModule dep.direct dep.text (dep.name mod) s) := by
  intro h
  have hnothing : Loaded vfatDeps ⟨[], [], none, []⟩ :=
    { known := by decide
      logged := rfl
      closed := by
        intro a ha
        exact absurd ha List.not_mem_nil }
  have hline : vfatLine ∈ vfatDeps.entries := by decide
  have hrun := h vfatDeps vfatFile _ _ hline acyclic_vfatFile hnothing
  have hfat := hrun.loads vfatFile (Or.inl rfl)
  rw [(modprobeModule_eq hline hnothing.toLogged).1] at hfat
  exact absurd hfat (by decide)

end Backpack.Boot
