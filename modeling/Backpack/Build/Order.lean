import Backpack.Shell.Commands
import Backpack.Shell.Test

/-!
# The order file

`modules/order.txt` names the module lists in the order in which they are built. Before
the build, `compile.sh` appends the lists that it does not name; the module loop then
reads it line by line.
-/

namespace Backpack.Build

open Shell

def modulesDir : Text := "modules".toList

/-- The name of `modules/order.txt`, which is not a module list. -/
def orderName : Text := "order".toList

/-- The path of a module list. -/
def listPath (name : Text) : Text := modulesDir ++ '/' :: (name ++ ".txt".toList)

/-- What `basename $i .txt` prints. -/
def listName (i : Text) : Text := basename (words i ++ [".txt".toList])

/-- `modules/*.txt`: the lists `modules/N.txt` for the given names, and `order.txt` itself. -/
def listFiles (lists : List Text) : List Text :=
  lsSort (((orderName :: lists).filter fun n =>
    pathMatch "*.txt".toList (n ++ ".txt".toList)).map listPath)

/-- The operands of ``[ -z "`grep ^$i$ modules/order.txt`" -a "$i" != "order" ]``. -/
def missingOperands (order i : Text) : List Text :=
  ["-z".toList, captured (unlines (grep .basic ('^' :: (i ++ ['$'])) order)), "-a".toList, i,
    "!=".toList, orderName]

/-- One turn of the loop that completes `order.txt`. Nothing in its test asks the system. -/
def addMissing (order i : Text) : Text :=
  let i := listName i
  if bashTest (fun _ _ => none) (missingOperands order i) = some true then order ++ echo [i]
  else order

/-- `order.txt` after "Making sure we are building all modules". -/
def completeOrder (lists : List Text) (order : Text) : Text :=
  (listFiles lists).foldl addMissing order

/-- The list that the module loop works on for a line of `order.txt`. -/
def loopList (line : Text) : Text := listPath (listName line)

/-! ## Names of lists -/

/-- A name that the scripts pass around unchanged: a single word that `basename` neither
takes for an option nor shortens. -/
structure ListName (n : Text) : Prop where
  word : IsWord n
  no_slash : '/' ∉ n
  not_option : isOption n = false
  suffix : stripSuffix ".txt".toList n = n
  ne_nil : n ≠ []

namespace ListName

theorem isWord_listPath {n : Text} (h : IsWord n) : IsWord (listPath n) := by
  have hdir : IsWord modulesDir := by decide
  have hsuffix : IsWord ".txt".toList := by decide
  exact hdir.append ((h.append hsuffix).cons ⟨rfl, rfl⟩)

theorem listPath_ne_nil (n : Text) : listPath n ≠ [] := List.cons_ne_nil _ _

/-- Different lists have different files. -/
theorem listPath_injective {m n : Text} (h : listPath m = listPath n) : m = n := by
  unfold listPath at h
  have htail := (List.cons.inj (List.append_cancel_left h)).2
  exact List.append_cancel_right htail

/-- `basename modules/name.txt .txt` is the name. -/
theorem listName_listPath {n : Text} (hw : IsWord n) (hs : '/' ∉ n) (hne : n ≠ []) :
    listName (listPath n) = n := by
  have hslash : '/' ∉ n ++ ".txt".toList := by
    intro h
    rcases List.mem_append.mp h with h | h
    · exact hs h
    · exact absurd h (by decide)
  have hopt : isOption (listPath n) = false := rfl
  rw [listName, basename_words_suffix (isWord_listPath hw).noBlank (listPath_ne_nil n) hopt,
    listPath, lastComponent_append hslash (List.append_ne_nil_of_left_ne_nil hne _)]
  exact stripSuffix_append hne

/-- A line with the name of a list is that name for the module loop. -/
theorem listName_eq {n : Text} (h : ListName n) : listName n = n := by
  rw [listName, basename_words_suffix h.word.noBlank h.ne_nil h.not_option,
    lastComponent_of_no_slash h.no_slash]
  exact h.suffix

/-- The lines that the module loop handles as they stand are names of lists. -/
theorem of_listName_trim {n : Text} (hs : '/' ∉ n) (hg : ∀ c ∈ n, globOrdinary c = true)
    (h : listName (trim n) = n) : ListName n := by
  have hbase : basename (words (trim n) ++ [".txt".toList]) = n := h
  rcases hws : words (trim n) with _ | ⟨w, _ | ⟨w', ws⟩⟩
  · -- an empty line makes `.txt` the only operand
    rw [hws] at hbase
    obtain rfl : ".txt".toList = n := by rw [← hbase]; decide
    exact absurd hws (by decide)
  · rw [hws, List.singleton_append, basename] at hbase
    have hwb : NoBlank w := by
      have hmem : w ∈ words (trim n) := by rw [hws]; exact List.mem_singleton_self w
      unfold words at hmem
      exact noBlank_of_mem_splitOnP (List.mem_of_mem_filter hmem)
    have hne : n ≠ [] := by
      rintro rfl
      exact absurd hws (by simp [show words (trim []) = [] from rfl])
    split_ifs at hbase with hopt
    · exact absurd hbase.symm hne
    · have hnb : NoBlank n := by
        intro c hc
        rw [← hbase] at hc
        exact hwb c (mem_of_mem_lastComponent (mem_of_mem_stripSuffix hc))
      rw [trim_of_noBlank hnb, words_of_noBlank hnb hne] at hws
      obtain rfl : n = w := by simpa using hws
      rw [lastComponent_of_no_slash hs] at hbase
      exact ⟨fun c hc => ⟨hnb c hc, hg c hc⟩, hs, by simpa using hopt, hbase, hne⟩
  · -- too many operands, so nothing is printed
    have hlong : basename (w :: w' :: ws ++ [".txt".toList]) = [] := by cases ws <;> rfl
    rw [hws, hlong] at hbase
    subst hbase
    exact absurd hws (by simp [show words (trim []) = [] from rfl])

end ListName

end Backpack.Build
