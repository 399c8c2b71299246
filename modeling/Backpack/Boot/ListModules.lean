import Backpack.Boot.Cmdline
import Backpack.Shell.Test

/-!
# Choosing the modules to boot

`list_modules` of the initramfs: which of the `.mo` files of the live medium are loaded
and in what order. A first loop follows `/order.txt`, a second one goes through the
directory; both leave out modules that count as optional and are not asked for by the
`load=` boot parameter.
-/

namespace Backpack.Boot

open Shell

/-- A `.mo` file in the data root (`dir` is `none`) or one directory below it. -/
structure Module where
  dir : Option Text
  name : Text
deriving DecidableEq

def Module.fileName (m : Module) : Text := m.name ++ ".mo".toList

def Module.path (root : Text) (m : Module) : Text :=
  match m.dir with
  | none => root ++ '/' :: m.fileName
  | some d => root ++ '/' :: d ++ '/' :: m.fileName

/-- `ls -A1d $1/pat $1/*/pat` -/
def lsModules (root : Text) (files : List Module) (pat : Text) : List Text :=
  lsSort ((files.filter fun m =>
    pathMatch pat m.fileName && m.dir.all (pathMatch ['*'])).map (Module.path root))

/-- The operands of the test for modules that are not wanted: the line contains `optional` and
`LOAD` does not ask for the module. -/
def skipOperands (load line modname : Text) : List Text :=
  [load, "!=".toList, ['*'], "-a".toList,
    captured (unlines (grep .basic "optional".toList (echo (words line)))), "!=".toList, [],
    "-a".toList,
    captured (unlines (grep .extended ("(^|,)".toList ++ modname ++ "($|,)".toList)
      (echo (words load)))), "=".toList, []]

/-- The line is passed over. What the system would answer to a test of a file makes no
difference, see `skipped_system`. -/
def skipped (load line modname : Text) : Bool :=
  busyboxTest (fun _ _ => none) (skipOperands load line modname) == some true

/-- What `basename $LINE .mo` prints. -/
def modName (line : Text) : Text := basename (words line ++ [".mo".toList])

/-- The two loops of `list_modules root`, given `LOAD` and the text of `/order.txt`. -/
def listModulesFor (root : Text) (files : List Module) (load order : Text) : Text :=
  (whileRead order fun line =>
    whileRead (unlines (lsModules root files (line ++ ".mo".toList))) fun line =>
      if skipped load line (modName line) then [] else echo (words line)) ++
  whileRead (unlines (lsModules root files "*.mo".toList)) fun line =>
    if !noOutput (grep .basic ('^' :: (modName line ++ ['$'])) order) then []
    else if skipped load line (modName line) then []
    else echo (words line)

/-- `` LOAD="`cmdline_value load`" ``, where `cmdline` is in `/proc/cmdline` -/
def loadOption (cmdline : Text) : Text := captured (cmdlineValue "load".toList cmdline)

/-- The output of `list_modules root`. -/
def listModules (root : Text) (files : List Module) (cmdline order : Text) : Text :=
  listModulesFor root files (loadOption cmdline) order

/-! ## What the directory may contain -/

/-- The data directory of a live medium: an absolute path and the modules in it. -/
structure DataDir where
  root : Text
  files : List Module
  nodup : files.Nodup
  root_abs : root.head? = some '/'
  root_word : IsWord root
  dir_word : ∀ m ∈ files, ∀ d ∈ m.dir, IsWord d ∧ '/' ∉ d
  name_word : ∀ m ∈ files, IsWord m.name ∧ '/' ∉ m.name

theorem isWord_mo : IsWord ".mo".toList := by decide

namespace Module

/-- The path, split at its last slash. -/
theorem path_eq (root : Text) (m : Module) :
    ∃ d, m.path root = d ++ '/' :: m.fileName ∧ (m.dir = none → d = root) ∧
      ∀ e, m.dir = some e → d = root ++ '/' :: e := by
  cases h : m.dir with
  | none => exact ⟨root, by simp [path, h], fun _ => rfl, by simp⟩
  | some e =>
    exact ⟨root ++ '/' :: e, by simp [path, h], by simp, by rintro _ ⟨rfl⟩; rfl⟩

/-- A path has a slash. -/
theorem slash_mem_path (root : Text) (m : Module) : '/' ∈ m.path root := by
  obtain ⟨d, hd, -⟩ := path_eq root m
  simp [hd]

theorem path_ne_nil (root : Text) (m : Module) : m.path root ≠ [] :=
  List.ne_nil_of_mem (slash_mem_path root m)

theorem fileName_ne_nil (m : Module) : m.fileName ≠ [] := by simp [fileName]

end Module

namespace DataDir

variable (d : DataDir)

/-- The name of a file has none. -/
theorem slash_not_mem_fileName {m : Module} (hm : m ∈ d.files) : '/' ∉ m.fileName := by
  intro h
  rcases List.mem_append.mp h with h | h
  · exact (d.name_word m hm).2 h
  · exact absurd h (by decide)

/-- The name of a module's file is one word. -/
theorem isWord_fileName {m : Module} (hm : m ∈ d.files) : IsWord m.fileName :=
  (d.name_word m hm).1.append isWord_mo

/-- So is its path. -/
theorem isWord_path {m : Module} (hm : m ∈ d.files) : IsWord (m.path d.root) := by
  have hslash : isBlank '/' = false ∧ globOrdinary '/' = true := ⟨rfl, rfl⟩
  have hfile := (isWord_fileName d hm).cons hslash
  cases h : m.dir with
  | none =>
    simp only [Module.path, h]
    exact d.root_word.append hfile
  | some e =>
    simp only [Module.path, h]
    exact (d.root_word.append ((d.dir_word m hm e h).1.cons hslash)).append hfile

/-- `path` tells the modules of a directory apart. -/
theorem path_injective {m m' : Module} (hm : m ∈ d.files) (hm' : m' ∈ d.files)
    (h : m.path d.root = m'.path d.root) : m = m' := by
  obtain ⟨p, hp, hpn, hps⟩ := Module.path_eq d.root m
  obtain ⟨p', hp', hpn', hps'⟩ := Module.path_eq d.root m'
  have hsplit := congrArg (List.splitOn '/') (hp.symm.trans (h.trans hp'))
  rw [List.splitOn_append_cons_self, List.splitOn_append_cons_self,
    List.splitOn_eq_singleton (d.slash_not_mem_fileName hm),
    List.splitOn_eq_singleton (d.slash_not_mem_fileName hm')] at hsplit
  have hfile : m.fileName = m'.fileName := by
    simpa using (List.append_inj' hsplit rfl).2
  have hname : m.name = m'.name := List.append_cancel_right hfile
  have hdir : p = p' := by
    rw [hp, hp', hfile] at h
    exact List.append_cancel_right h
  have hroot : d.root ≠ [] := by
    intro hnil
    have := d.root_abs
    rw [hnil] at this
    exact absurd this (by simp)
  cases hd : m.dir with
  | none =>
    cases hd' : m'.dir with
    | none => cases m; cases m'; simp_all
    | some e' =>
      have hp := hpn hd
      have hp' := hps' e' hd'
      rw [hdir, hp'] at hp
      simp at hp
  | some e =>
    cases hd' : m'.dir with
    | none =>
      have hp := hps e hd
      have hp' := hpn' hd'
      rw [hdir, hp'] at hp
      simp at hp
    | some e' =>
      have hp := hps e hd
      have hp' := hps' e' hd'
      rw [hdir, hp'] at hp
      have he : e = e' := by simpa using hp.symm
      cases m; cases m'; simp_all

end DataDir

end Backpack.Boot
