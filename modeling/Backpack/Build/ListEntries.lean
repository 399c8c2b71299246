import Backpack.Build.PackageLists
import Backpack.Shell.RegexTheorems

/-!
# The entries of a list

An entry is a package, with the value of `bits` and the directory that it is for, or it is a
command, a list to import, or a package to ignore. The build loop takes an entry apart from its
beginning, `--verify` deletes parts of it wherever they stand.
-/

namespace Backpack.Build

open Shell

/-! ## The language of the lists -/

/-- A character that stands for itself in all the patterns. -/
def entryChar (c : Char) : Bool :=
  !isSpace c && globOrdinary c && Flavour.basic.ordinary c && c != '/'

theorem isSpace_of_isBlank {c : Char} (h : isBlank c = true) : isSpace c = true := by
  simp only [isBlank, Bool.or_eq_true, beq_iff_eq] at h
  rcases h with (rfl | rfl) | rfl <;> decide

theorem noBlank_of_noSpace {w : Text} (h : ∀ c ∈ w, isSpace c = false) : NoBlank w := by
  intro c hc
  by_contra hblank
  have hspace := isSpace_of_isBlank (Bool.not_eq_false _ ▸ hblank)
  rw [h c hc] at hspace
  exact absurd hspace (by decide)

def PlainEntry (w : Text) : Prop := ∀ c ∈ w, entryChar c = true

instance (w : Text) : Decidable (PlainEntry w) := inferInstanceAs (Decidable (∀ c ∈ w, _))

/-- Plain parts make a plain entry. -/
theorem plain_append {v w : Text} (hv : PlainEntry v) (hw : PlainEntry w) : PlainEntry (v ++ w) :=
  List.forall_mem_append.mpr ⟨hv, hw⟩

/-- Parts without space make a word. -/
theorem noSpace_append {v w : Text} (hv : ∀ c ∈ v, isSpace c = false)
    (hw : ∀ c ∈ w, isSpace c = false) : ∀ c ∈ v ++ w, isSpace c = false :=
  List.forall_mem_append.mpr ⟨hv, hw⟩

section
variable {w : Text} (h : PlainEntry w)
include h

/-- No character of a plain entry is special in a shell pattern. -/
theorem PlainEntry.glob : ∀ c ∈ w, globOrdinary c = true := by
  intro c hc
  have hchar := h c hc
  simp only [entryChar, Bool.and_eq_true] at hchar
  exact hchar.1.1.2

/-- Nor in one of grep. -/
theorem PlainEntry.basic : ∀ c ∈ w, Flavour.basic.ordinary c = true := by
  intro c hc
  have hchar := h c hc
  simp only [entryChar, Bool.and_eq_true] at hchar
  exact hchar.1.2

theorem PlainEntry.no_blank : ' ' ∉ w := fun hc => absurd (h _ hc) (by decide)

/-- A plain entry has no space in it. -/
theorem PlainEntry.noSpace : ∀ c ∈ w, isSpace c = false := by
  intro c hc
  have hchar := h c hc
  simp only [entryChar, Bool.and_eq_true, Bool.not_eq_true'] at hchar
  exact hchar.1.1.1

theorem PlainEntry.noBlank : NoBlank w := noBlank_of_noSpace h.noSpace

/-- A part of a plain entry is plain. -/
theorem PlainEntry.sublist {v : Text} (hv : v.Sublist w) : PlainEntry v :=
  fun c hc => h c (hv.mem hc)

end

/-- The name of a package: letters, digits, `+`, `_`, `-` and other characters that stand for
themselves in all the patterns, with the exception of the colon. -/
structure PackageName (name : Text) : Prop where
  ne_nil : name ≠ []
  plain : PlainEntry name
  no_colon : ':' ∉ name

instance (name : Text) : Decidable (PackageName name) :=
  decidable_of_iff (name ≠ [] ∧ PlainEntry name ∧ ':' ∉ name)
    ⟨fun h => ⟨h.1, h.2.1, h.2.2⟩, fun h => ⟨h.ne_nil, h.plain, h.no_colon⟩⟩

def bitsWord : Option Bits → Text
  | none => []
  | some .b32 => "32:".toList
  | some .b64 => "64:".toList

def dirWord : Option PackageDir → Text
  | none => []
  | some .slackware => "SLACKWARE:".toList
  | some .dropline => "DROPLINE:".toList
  | some .extra => "EXTRA:".toList

/-- What stands before the colons in the patterns of `--verify`. -/
def keys : List Text :=
  ["32".toList, "64".toList, "IMPORT".toList, "CMD".toList, "SLACKWARE".toList, "DROPLINE".toList,
    "EXTRA".toList]

/-- An entry of a list. The reason for ignoring a package can have any characters but colons and
blanks if no key of `--verify` stands before it. -/
inductive ListEntry : Text → Prop where
  | package (bits : Option Bits) (dir : Option PackageDir) {name : Text}
      (hname : PackageName name) : ListEntry (bitsWord bits ++ dirWord dir ++ name)
  | ignore {t : Text} (ht : PlainEntry t) : ListEntry ("IGNORE:".toList ++ t)
  | reason {name t : Text} (hname : PackageName name) (hkeys : ∀ k ∈ keys, ¬ k <:+ name)
      (hspace : ∀ c ∈ t, isSpace c = false) (ht : ':' ∉ t) :
      ListEntry ("IGNORE:".toList ++ (name ++ ':' :: t))
  | command {t : Text} (hspace : ∀ c ∈ t, isSpace c = false) : ListEntry ("CMD:".toList ++ t)
  | list {t : Text} (hspace : ∀ c ∈ t, isSpace c = false) : ListEntry ("IMPORT:".toList ++ t)

theorem isSpace_of_isAlphanum {c : Char} (h : c.isAlphanum = true) : isSpace c = false := by
  have hlow : 48 ≤ c.toNat := by
    simp only [Char.isAlphanum, Char.isAlpha, Char.isUpper, Char.isLower, Char.isDigit,
      Bool.or_eq_true, Bool.and_eq_true, decide_eq_true_eq, ge_iff_le,
      UInt32.le_iff_toNat_le] at h
    simp at h
    omega
  have hblank : c ≠ ' ' := by
    rintro rfl
    exact absurd hlow (by decide)
  have hhigh : ¬ c ≤ '\r' := by
    intro hle
    have hval := UInt32.le_iff_toNat_le.mp (Char.le_def.mp hle)
    simp at hval
    omega
  simp [isSpace, hblank, hhigh]

/-- Letters, digits and the usual signs make a package name. -/
theorem packageName_of_alphanum {name : Text} (hne : name ≠ [])
    (h : ∀ c ∈ name, c.isAlphanum = true ∨ c ∈ ['+', '_', '-']) : PackageName name := by
  have hchar : ∀ c ∈ name, entryChar c = true ∧ c ≠ ':' := by
    intro c hc
    rcases h c hc with halpha | hsign
    · have hother : ∀ d : Char, d.isAlphanum = false → c ≠ d := by
        rintro d hd rfl
        rw [hd] at halpha
        exact absurd halpha (by decide)
      have hglob : globOrdinary c = true := by simp [globOrdinary, hother]
      have hbasic : Flavour.basic.ordinary c = true := by simp [Flavour.ordinary, hother]
      rw [entryChar, isSpace_of_isAlphanum halpha, hglob, hbasic]
      simp [hother]
    · have hsigns : ∀ d ∈ ['+', '_', '-'], entryChar d = true ∧ d ≠ ':' := by decide
      exact hsigns c hsign
  exact ⟨hne, fun c hc => (hchar c hc).1, fun hc => (hchar _ hc).2 rfl⟩

/-! ## What is left of an entry -/

/-- Stripping adds no character. -/
theorem mem_strip {pat item : Text} {ms : List Text} (h : item ∈ strip pat ms) :
    ∃ m ∈ ms, ∀ c ∈ item, c ∈ m := by
  rcases List.mem_flatMap.mp h with ⟨m, hm, hitem⟩
  refine ⟨m, hm, fun c hc => ?_⟩
  exact (deleteMatch_sublist pat m).mem (mem_of_mem_words hitem hc)

/-- What is left of plain entries is plain. -/
theorem plain_strip {pat : Text} {ms : List Text} (h : ∀ m ∈ ms, PlainEntry m) :
    ∀ item ∈ strip pat ms, PlainEntry item := by
  intro item hitem c hc
  rcases mem_strip hitem with ⟨m, hm, hsub⟩
  exact h m hm c (hsub c hc)

/-- The name in a plain entry is plain. -/
theorem plain_entryName {item : Text} (h : PlainEntry item) : PlainEntry (entryName item) := by
  unfold entryName cutSecond
  split_ifs
  · intro c hc
    cases hsecond : (item.splitOn ':')[1]? with
    | none => simp [List.getD_eq_getElem?_getD, hsecond] at hc
    | some v =>
      rw [List.getD_eq_getElem?_getD, hsecond, Option.getD_some] at hc
      rcases (mem_splitOn_iff.mp (List.mem_of_getElem? hsecond)).1 with ⟨pre, post, heq, -, -⟩
      exact h c (by simp [heq, hc])
  · exact h
  · exact h

/-- The master list is read entry by entry. -/
theorem verifyMaster_append (bits : Bits) (ms ms' : List Text) :
    verifyMaster bits (ms ++ ms') = verifyMaster bits ms ++ verifyMaster bits ms' := by
  unfold verifyMaster strip
  split_ifs <;> simp only [List.flatMap_append]

/-- Each item comes from one entry. -/
theorem mem_verifyMaster {bits : Bits} {ms : List Text} {item : Text}
    (h : item ∈ verifyMaster bits ms) : ∃ m ∈ ms, item ∈ verifyMaster bits [m] := by
  induction ms with
  | nil =>
    unfold verifyMaster strip at h
    split_ifs at h <;> exact absurd h List.not_mem_nil
  | cons m ms ih =>
    rw [show m :: ms = [m] ++ ms from rfl, verifyMaster_append] at h
    rcases List.mem_append.mp h with h | h
    · exact ⟨m, List.mem_cons_self, h⟩
    · rcases ih h with ⟨x, hx, hitem⟩
      exact ⟨x, List.mem_cons_of_mem m hx, hitem⟩

/-- The first substitution of `--verify`, which depends on `bits`. -/
def bitsPattern (bits : Bits) : Text :=
  if bits = .b32 then "64:[^[:space:]]*".toList else "32:[^[:space:]]*".toList

/-- The readings of the master list, one `strip` after another. -/
theorem verifyMaster_eq (bits : Bits) (ms : List Text) : verifyMaster bits ms =
    strip "32:".toList (strip "64:".toList (strip "EXTRA:".toList (strip "DROPLINE:".toList
      (strip "SLACKWARE:".toList (strip "CMD:[^[:space:]]*".toList
        (strip "IMPORT:[^[:space:]]*".toList (strip (bitsPattern bits) ms))))))) := by
  unfold verifyMaster bitsPattern
  split_ifs <;> rfl

/-- When commands and imports are gone, what is left has plain names. -/
theorem plain_verifyMaster {bits : Bits} {ms : List Text}
    (h : ∀ m ∈ strip "CMD:[^[:space:]]*".toList (strip "IMPORT:[^[:space:]]*".toList
      (strip (bitsPattern bits) ms)), PlainEntry m) :
    ∀ item ∈ verifyMaster bits ms, PlainEntry (entryName item) := by
  intro item hitem
  rw [verifyMaster_eq] at hitem
  exact plain_entryName
    (plain_strip (plain_strip (plain_strip (plain_strip (plain_strip h)))) item hitem)

/-- The pattern `word[^[:space:]]*` -/
def greedy (w : Text) : Text := w ++ '[' :: (nonSpaceSet ++ ['*'])

/-- The greedy pattern takes what follows the word, up to any place. -/
theorem mem_globRests_greedy {w : Text} (hw : ∀ c ∈ w, globOrdinary c = true) {s t : Text} :
    t ∈ globRests (globItems 0 (greedy w)) s ↔
      ∃ c post, s = w ++ c :: post ∧ isSpace c = false ∧ t <:+ post := by
  rcases globItems_nonSpaceSet ['*'] with ⟨p, hp, hspace⟩
  have hend : ∀ u, t ∈ globRests (globItems 0 []) u ↔ t = u := fun u => by
    simp [globItems, globRests]
  unfold greedy
  rw [globItems_ordinary hw, hp, globItems_many]
  simp only [mem_globRests_ordinary, mem_globRests_one, mem_globRests_many, hend, hspace,
    Bool.not_eq_true']
  refine ⟨?_, ?_⟩
  · rintro ⟨_, rfl, c, _, rfl, hc, v, _, rfl, rfl⟩
    exact ⟨c, v ++ t, rfl, hc, List.suffix_append v t⟩
  · rintro ⟨c, _, rfl, hc, v, rfl⟩
    exact ⟨_, rfl, c, _, rfl, hc, v, _, rfl, rfl⟩

section
variable {w : Text} (hw : ∀ c ∈ w, globOrdinary c = true) {m : Text}
include hw

/-- Such a pattern takes everything after its first match. -/
theorem deleteMatch_greedy_initial : deleteMatch (greedy w) m <+: m := by
  refine deleteItems_initial fun t _ hne => ?_
  rcases List.exists_mem_of_ne_nil _ hne with ⟨u, hu⟩
  rcases (mem_globRests_greedy hw).mp hu with ⟨c, post, rfl, hc, -⟩
  exact (mem_globRests_greedy hw).mpr ⟨c, post, rfl, hc, List.nil_suffix⟩

/-- What the greedy pattern leaves is a beginning of the word. -/
theorem mem_words_greedy (hm : ∀ c ∈ m, isSpace c = false) {item : Text}
    (h : item ∈ words (deleteMatch (greedy w) m)) : item <+: m := by
  have hinitial := @deleteMatch_greedy_initial w hw m
  have hblank : NoBlank (deleteMatch (greedy w) m) :=
    noBlank_of_noSpace fun c hc => hm c (hinitial.mem hc)
  by_cases hnil : deleteMatch (greedy w) m = []
  · rw [hnil] at h
    exact absurd h List.not_mem_nil
  · rw [words_of_noBlank hblank hnil, List.mem_singleton] at h
    exact h ▸ hinitial

/-- Of an entry that begins with the word nothing is left but a beginning of the word. -/
theorem words_greedy_of_prefix (hm : ∀ c ∈ m, isSpace c = false) {t : Text} (h : m <+: w ++ t)
    {item : Text} (hitem : item ∈ words (deleteMatch (greedy w) m)) : item <+: w := by
  rcases List.prefix_or_prefix_of_prefix h (List.prefix_append w t) with h | ⟨u, rfl⟩
  · exact (mem_words_greedy hw hm hitem).trans h
  · cases u with
    | nil => simpa using mem_words_greedy hw hm hitem
    | cons c post =>
      have hnil : deleteMatch (greedy w) (w ++ c :: post) = [] :=
        deleteItems_of_whole ((mem_globRests_greedy hw).mpr
          ⟨c, post, rfl, hm c (by simp), List.nil_suffix⟩)
      rw [hnil] at hitem
      exact absurd hitem List.not_mem_nil

end

/-- An entry that both readers take as it is meant: characters without a meaning in patterns,
except in the text of commands, of imports, and of the reasons for ignoring a package. -/
def Readable (bits : Bits) (w : Text) : Prop :=
  PlainEntry w ∨
    ("CMD:".toList <+: w ∨ "IMPORT:".toList <+: w) ∧ (∀ c ∈ w, isSpace c = false) ∨
    "IGNORE:".toList <+: w ∧ ∀ item ∈ verifyMaster bits [w], PlainEntry (entryName item)

/-- A readable entry gives plain names to the verification. -/
theorem Readable.plain_items {bits : Bits} {w : Text} (h : Readable bits w) :
    ∀ item ∈ verifyMaster bits [w], PlainEntry (entryName item) := by
  rcases h with hplain | ⟨hcmd, hspace⟩ | ⟨-, hignore⟩
  · refine plain_verifyMaster (plain_strip (plain_strip (plain_strip fun m hm => ?_)))
    rw [List.mem_singleton.mp hm]
    exact hplain
  · have hbits : ∀ m ∈ strip (bitsPattern bits) [w], m <+: w := by
      intro m hm
      have hgreedy : ∃ v, bitsPattern bits = greedy v ∧ ∀ c ∈ v, globOrdinary c = true := by
        cases bits
        · exact ⟨"64:".toList, rfl, by decide⟩
        · exact ⟨"32:".toList, rfl, by decide⟩
      rcases hgreedy with ⟨v, hv, hord⟩
      rw [hv, strip, List.flatMap_singleton] at hm
      exact mem_words_greedy hord hspace hm
    have hkeep : ∀ m, m <+: w → ∀ c ∈ m, isSpace c = false := fun m hm c hc =>
      hspace c (hm.mem hc)
    have himportOrd : ∀ c ∈ "IMPORT:".toList, globOrdinary c = true := by decide
    have hcmdOrd : ∀ c ∈ "CMD:".toList, globOrdinary c = true := by decide
    refine plain_verifyMaster ?_
    rcases hcmd with ⟨t, rfl⟩ | ⟨t, rfl⟩
    · intro item hitem
      rcases List.mem_flatMap.mp hitem with ⟨m, hm, hitem⟩
      rcases List.mem_flatMap.mp hm with ⟨m', hm', hm⟩
      have hm'' := mem_words_greedy himportOrd (hkeep m' (hbits m' hm')) hm
      have hinitial := hm''.trans (hbits m' hm')
      have hitem := words_greedy_of_prefix hcmdOrd (hkeep m hinitial) hinitial hitem
      exact PlainEntry.sublist (by decide) hitem.sublist
    · refine plain_strip fun m hm => ?_
      rcases List.mem_flatMap.mp hm with ⟨m', hm', hm⟩
      have hm := words_greedy_of_prefix himportOrd (hkeep m' (hbits m' hm')) (hbits m' hm') hm
      exact PlainEntry.sublist (by decide) hm.sublist
  · exact hignore

/-! ## What the build looks for -/

/-- Cutting out of a plain name leaves a plain name. -/
theorem plain_cutOut {pat file : Text} (h : PlainEntry file) : PlainEntry (cutOut pat file) := by
  intro c hc
  unfold cutOut at hc
  cases hw : words (deleteMatch pat file) with
  | nil => rw [hw] at hc; exact absurd hc List.not_mem_nil
  | cons w ws =>
    rw [hw] at hc
    have hmem : w ∈ words (deleteMatch pat file) := hw ▸ List.mem_cons_self
    exact h c ((deleteMatch_sublist pat file).mem (mem_of_mem_words hmem hc))

/-- A readable entry asks for a plain name. -/
theorem Readable.plain_request {bits : Bits} {w : Text} (h : Readable bits w)
    {r : List PackageDir × Text} (hr : request bits w = some r) : PlainEntry r.2 := by
  unfold request at hr
  by_cases hcmd : w.take 4 = "CMD:".toList
  · rw [if_pos hcmd] at hr
    exact absurd hr (by simp)
  by_cases himport : w.take 7 = "IMPORT:".toList
  · rw [if_neg hcmd, if_pos himport] at hr
    exact absurd hr (by simp)
  by_cases hignore : w.take 7 = "IGNORE:".toList
  · rw [if_neg hcmd, if_neg himport, if_pos hignore] at hr
    exact absurd hr (by simp)
  -- a package, whose name is a part of the entry
  have hplain : PlainEntry w := by
    rcases h with hplain | ⟨h | h, -⟩ | ⟨h, -⟩
    · exact hplain
    · exact absurd (List.prefix_iff_eq_take.mp h).symm hcmd
    · exact absurd (List.prefix_iff_eq_take.mp h).symm himport
    · exact absurd (List.prefix_iff_eq_take.mp h).symm hignore
  have hfile := @plain_cutOut "64:".toList _ (@plain_cutOut "32:".toList _ hplain)
  rw [if_neg hcmd, if_neg himport, if_neg hignore] at hr
  dsimp only at hr
  split_ifs at hr <;> rw [← Option.some.inj hr]
  · exact plain_cutOut hfile
  · exact plain_cutOut hfile
  · exact plain_cutOut hfile
  · exact hfile

/-! ## One entry in the two readers -/

/-- A beginning with colons only decides whether a key is there. -/
theorem take_eq_iff {n : ℕ} {k pre name : Text} (hn : k.length = n)
    (hk : k.getLast? = some ':') (hname : ':' ∉ name) :
    (pre ++ name).take n = k ↔ pre.take n = k := by
  have hbegins : ∀ t : Text, t.take n = k ↔ k <+: t := by
    intro t
    rw [List.prefix_iff_eq_take, hn, eq_comm]
  rw [hbegins, hbegins, prefix_append_iff hk hname]

/-- The key is cut out before the package's name. -/
theorem cutOut_append {k pre name : Text} (hk : ∀ c ∈ k, globOrdinary c = true)
    (hlast : k.getLast? = some ':') (hpre : NoBlank pre) (hname : PackageName name) :
    cutOut k (pre ++ name) = cutOut k pre ++ name := by
  have hdelete : NoBlank (deleteMatch k pre) := fun c hc =>
    hpre c ((deleteMatch_sublist k pre).mem hc)
  have hblank : NoBlank (deleteMatch k pre ++ name) := by
    intro c hc
    rcases List.mem_append.mp hc with hc | hc
    · exact hdelete c hc
    · exact hname.plain.noBlank c hc
  have hcut : cutOut k pre = deleteMatch k pre := by
    unfold cutOut
    by_cases hnil : deleteMatch k pre = []
    · rw [hnil]
      rfl
    · rw [words_of_noBlank hdelete hnil]
      rfl
  unfold cutOut at hcut ⊢
  rw [deleteMatch_append hk hlast hname.no_colon, hcut,
    words_of_noBlank hblank (by simp [hname.ne_nil])]
  rfl

/-- Cutting out adds no blank. -/
theorem noBlank_cutOut {k pre : Text} (hpre : NoBlank pre) : NoBlank (cutOut k pre) := by
  intro c hc
  unfold cutOut at hc
  cases hw : words (deleteMatch k pre) with
  | nil => rw [hw] at hc; exact absurd hc List.not_mem_nil
  | cons w ws =>
    rw [hw] at hc
    have hmem : w ∈ words (deleteMatch k pre) := hw ▸ List.mem_cons_self
    exact hpre c ((deleteMatch_sublist k pre).mem (mem_of_mem_words hmem hc))

/-- The build loop takes the words away and leaves the name. -/
theorem request_append (bits : Bits) {pre name : Text} (hpre : NoBlank pre)
    (hname : PackageName name) :
    request bits (pre ++ name) = (request bits pre).map fun r => (r.1, r.2 ++ name) := by
  have hcmd : (pre ++ name).take 4 = "CMD:".toList ↔ pre.take 4 = "CMD:".toList :=
    take_eq_iff rfl (by decide) hname.no_colon
  have himport : (pre ++ name).take 7 = "IMPORT:".toList ↔ pre.take 7 = "IMPORT:".toList :=
    take_eq_iff rfl (by decide) hname.no_colon
  have hignore : (pre ++ name).take 7 = "IGNORE:".toList ↔ pre.take 7 = "IGNORE:".toList :=
    take_eq_iff rfl (by decide) hname.no_colon
  have h32 : (pre ++ name).take 3 = "32:".toList ↔ pre.take 3 = "32:".toList :=
    take_eq_iff rfl (by decide) hname.no_colon
  have h64 : (pre ++ name).take 3 = "64:".toList ↔ pre.take 3 = "64:".toList :=
    take_eq_iff rfl (by decide) hname.no_colon
  have hfirst := @noBlank_cutOut "32:".toList pre hpre
  have hboth := @noBlank_cutOut "64:".toList _ hfirst
  rw [request, request, cutOut_append (by decide) (by decide) hpre hname,
    cutOut_append (by decide) (by decide) hfirst hname]
  generalize cutOut "64:".toList (cutOut "32:".toList pre) = file at hboth ⊢
  have hextra : (file ++ name).take 6 = "EXTRA:".toList ↔ file.take 6 = "EXTRA:".toList :=
    take_eq_iff rfl (by decide) hname.no_colon
  have hdropline : (file ++ name).take 9 = "DROPLINE:".toList ↔ file.take 9 = "DROPLINE:".toList :=
    take_eq_iff rfl (by decide) hname.no_colon
  have hslackware :
      (file ++ name).take 10 = "SLACKWARE:".toList ↔ file.take 10 = "SLACKWARE:".toList :=
    take_eq_iff rfl (by decide) hname.no_colon
  dsimp only
  rw [cutOut_append (by decide) (by decide) hboth hname,
    cutOut_append (by decide) (by decide) hboth hname,
    cutOut_append (by decide) (by decide) hboth hname]
  simp only [hcmd, himport, hignore, h32, h64, hextra, hdropline, hslackware]
  split_ifs <;> rfl

/-- A key takes itself away in front of the name. -/
theorem strip_append {k pre name : Text} (hk : ∀ c ∈ k, globOrdinary c = true)
    (hlast : k.getLast? = some ':') (hpre : NoBlank pre) (hname : PackageName name) :
    strip k [pre ++ name] = [deleteMatch k pre ++ name] := by
  have hblank : NoBlank (deleteMatch k pre ++ name) := by
    intro c hc
    rcases List.mem_append.mp hc with hc | hc
    · exact hpre c ((deleteMatch_sublist k pre).mem hc)
    · exact hname.plain.noBlank c hc
  rw [strip, List.flatMap_singleton, deleteMatch_append hk hlast hname.no_colon,
    words_of_noBlank hblank (by simp [hname.ne_nil])]

/-- Without the key the entry stays. -/
theorem strip_of_missing {k m : Text} (hk : ∀ c ∈ k, globOrdinary c = true) (hm : NoBlank m)
    (hne : m ≠ []) (h : ¬ k <:+: m) : strip k [m] = [m] ∧ strip (greedy k) [m] = [m] := by
  have hgreedy : deleteMatch (greedy k) m = m := by
    refine deleteItems_of_no_match fun t ht => List.eq_nil_iff_forall_not_mem.mpr fun u hu => h ?_
    obtain ⟨c, post, rfl, -, -⟩ := (mem_globRests_greedy hk).mp hu
    exact (List.prefix_append k _).isInfix.trans ht.isInfix
  simp only [strip, List.flatMap_singleton, hgreedy, deleteMatch_of_not_infix hk h,
    words_of_noBlank hm hne, and_self]

/-- `32:` for `.b64`, which `bits` is not -/
def otherBits : Bits → Text
  | .b32 => "64:".toList
  | .b64 => "32:".toList

/-- The pattern for the other bits is greedy. -/
theorem bitsPattern_eq (bits : Bits) : bitsPattern bits = greedy (otherBits bits) := by
  cases bits <;> rfl

theorem otherBits_ordinary (bits : Bits) : ∀ c ∈ otherBits bits, globOrdinary c = true := by
  cases bits <;> decide

/-- An entry with a word for the other value of `bits` in front. -/
theorem verifyMaster_other {bits : Bits} {t : Text} (ht : t ≠ [])
    (hspace : ∀ c ∈ t, isSpace c = false) :
    verifyMaster bits [otherBits bits ++ t] = [] := by
  cases t with
  | nil => exact absurd rfl ht
  | cons c t =>
    have hnil : deleteMatch (greedy (otherBits bits)) (otherBits bits ++ c :: t) = [] :=
      deleteItems_of_whole ((mem_globRests_greedy (otherBits_ordinary bits)).mpr
        ⟨c, t, rfl, hspace c List.mem_cons_self, List.nil_suffix⟩)
    have hstrip : strip (greedy (otherBits bits)) [otherBits bits ++ c :: t] = [] := by
      rw [strip, List.flatMap_singleton, hnil]
      rfl
    rw [verifyMaster_eq, bitsPattern_eq, hstrip]
    rfl

/-- A package for the right value of `bits`: only the name is left. -/
theorem verifyMaster_package {bits : Bits} {pre name : Text} (hname : PackageName name)
    (hpre : NoBlank pre) (hbits : ¬ otherBits bits <:+: pre)
    (himport : ¬ "IMPORT:".toList <:+: pre) (hcmd : ¬ "CMD:".toList <:+: pre)
    (hleft : ["SLACKWARE:".toList, "DROPLINE:".toList, "EXTRA:".toList, "64:".toList,
      "32:".toList].foldl (fun t k => deleteMatch k t) pre = []) :
    verifyMaster bits [pre ++ name] = [name] := by
  have hblank : NoBlank (pre ++ name) := by
    intro c hc
    rcases List.mem_append.mp hc with hc | hc
    · exact hpre c hc
    · exact hname.plain.noBlank c hc
  have hne : pre ++ name ≠ [] := by simp [hname.ne_nil]
  have hstays : ∀ k : Text, (∀ c ∈ k, globOrdinary c = true) → k.getLast? = some ':' →
      ¬ k <:+: pre → strip (greedy k) [pre ++ name] = [pre ++ name] := by
    intro k hk hlast hnot
    refine (strip_of_missing hk hblank hne fun h => hnot ?_).2
    exact (infix_append_iff hlast hname.no_colon).mp h
  have hdelete : ∀ {k t : Text}, NoBlank t → NoBlank (deleteMatch k t) := fun ht c hc =>
    ht c ((deleteMatch_sublist _ _).mem hc)
  simp only [List.foldl_cons, List.foldl_nil] at hleft
  rw [verifyMaster_eq, bitsPattern_eq,
    hstays _ (otherBits_ordinary bits) (by cases bits <;> rfl) hbits,
    show "IMPORT:[^[:space:]]*".toList = greedy "IMPORT:".toList from rfl,
    hstays _ (by decide) (by decide) himport,
    show "CMD:[^[:space:]]*".toList = greedy "CMD:".toList from rfl,
    hstays _ (by decide) (by decide) hcmd, strip_append (by decide) (by decide) hpre hname,
    strip_append (by decide) (by decide) (hdelete hpre) hname,
    strip_append (by decide) (by decide) (hdelete (hdelete hpre)) hname,
    strip_append (by decide) (by decide) (hdelete (hdelete (hdelete hpre))) hname,
    strip_append (by decide) (by decide) (hdelete (hdelete (hdelete (hdelete hpre)))) hname,
    hleft, List.nil_append]

/-- The directories that the build looks into. -/
def dirsOf : Option PackageDir → List PackageDir
  | none => [.slackware, .dropline, .extra]
  | some d => [d]

/-- The two readers of a package entry. -/
theorem readers_package (bits : Bits) (b : Option Bits) (d : Option PackageDir) {name : Text}
    (hname : PackageName name) (hb : bitsWord b ≠ otherBits bits) :
    request bits (bitsWord b ++ dirWord d ++ name) = some (dirsOf d, name) ∧
      verifyMaster bits [bitsWord b ++ dirWord d ++ name] = [name] := by
  have hwords : NoBlank (bitsWord b ++ dirWord d) ∧
      request bits (bitsWord b ++ dirWord d) = some (dirsOf d, []) ∧
      ¬ otherBits bits <:+: bitsWord b ++ dirWord d ∧
      ¬ "IMPORT:".toList <:+: bitsWord b ++ dirWord d ∧
      ¬ "CMD:".toList <:+: bitsWord b ++ dirWord d ∧
      ["SLACKWARE:".toList, "DROPLINE:".toList, "EXTRA:".toList, "64:".toList,
        "32:".toList].foldl (fun t k => deleteMatch k t) (bitsWord b ++ dirWord d) = [] := by
    revert hb
    rcases b with _ | _ | _ <;> rcases d with _ | _ | _ | _ <;> cases bits <;> decide
  obtain ⟨hblank, hrequest, hbits, himport, hcmd, hleft⟩ := hwords
  rw [request_append bits hblank hname, hrequest]
  exact ⟨rfl, verifyMaster_package hname hblank hbits himport hcmd hleft⟩

/-- A package for the other value of `bits` is none for both readers. -/
theorem readers_other (bits : Bits) (b : Option Bits) (d : Option PackageDir) {name : Text}
    (hname : PackageName name) (hb : bitsWord b = otherBits bits) :
    request bits (bitsWord b ++ dirWord d ++ name) = none ∧
      verifyMaster bits [bitsWord b ++ dirWord d ++ name] = [] := by
  have hwords : NoBlank (bitsWord b ++ dirWord d) ∧
      request bits (bitsWord b ++ dirWord d) = none ∧
      ∀ c ∈ dirWord d, isSpace c = false := by
    revert hb
    rcases b with _ | _ | _ <;> rcases d with _ | _ | _ | _ <;> cases bits <;> decide
  obtain ⟨hblank, hrequest, hspace⟩ := hwords
  refine ⟨by rw [request_append bits hblank hname, hrequest]; rfl, ?_⟩
  rw [hb, List.append_assoc]
  refine verifyMaster_other (by simp [hname.ne_nil]) fun c hc => ?_
  rcases List.mem_append.mp hc with hc | hc
  · exact hspace c hc
  · exact hname.plain.noSpace c hc

/-- An entry is one word, and so is what is left of it. -/
theorem verifyMaster_length {w : Text} (hw : NoBlank w) (bits : Bits) :
    (verifyMaster bits [w]).length ≤ 1 := by
  have hstrip : ∀ (pat : Text) {ms : List Text}, ms.length ≤ 1 ∧ (∀ m ∈ ms, NoBlank m) →
      (strip pat ms).length ≤ 1 ∧ ∀ m ∈ strip pat ms, NoBlank m := by
    rintro pat ms ⟨hlen, hms⟩
    refine ⟨?_, fun m hm c hc => ?_⟩
    · match ms, hlen with
      | [], _ => exact Nat.zero_le 1
      | [m], _ =>
        have hdelete : NoBlank (deleteMatch pat m) := fun c hc =>
          hms m List.mem_cons_self c ((deleteMatch_sublist pat m).mem hc)
        rw [strip, List.flatMap_singleton]
        by_cases hnil : deleteMatch pat m = []
        · rw [hnil]
          exact Nat.zero_le 1
        · rw [words_of_noBlank hdelete hnil]
          exact Nat.le_refl 1
    · obtain ⟨x, hx, hsub⟩ := mem_strip hm
      exact hms x hx c (hsub c hc)
  have hentry : [w].length ≤ 1 ∧ ∀ m ∈ [w], NoBlank m :=
    ⟨Nat.le_refl 1, List.forall_mem_singleton.mpr hw⟩
  rw [verifyMaster_eq]
  exact (hstrip _ (hstrip _ (hstrip _ (hstrip _ (hstrip _ (hstrip _ (hstrip _
    (hstrip _ hentry)))))))).1

/-- An ignored package with its reason is one word. -/
theorem noSpace_reason {name t : Text} (hname : PackageName name)
    (hspace : ∀ c ∈ t, isSpace c = false) :
    ∀ c ∈ "IGNORE:".toList ++ (name ++ ':' :: t), isSpace c = false :=
  noSpace_append (by decide)
    (noSpace_append hname.plain.noSpace (List.forall_mem_cons.mpr ⟨rfl, hspace⟩))

/-- No key stands in the word of an ignored entry. -/
theorem key_spec : ∀ k ∈ keys, (':' ∉ k ∧ ¬ k <:+ "IGNORE".toList) ∧
    ∀ c ∈ k ++ [':'], globOrdinary c = true := by
  decide

/-- The reason for ignoring a package stays as it is. -/
theorem verifyMaster_reason {name t : Text} (hname : PackageName name)
    (hkeys : ∀ k ∈ keys, ¬ k <:+ name) (hspace : ∀ c ∈ t, isSpace c = false) (ht : ':' ∉ t)
    (bits : Bits) :
    verifyMaster bits ["IGNORE:".toList ++ (name ++ ':' :: t)] =
      ["IGNORE:".toList ++ (name ++ ':' :: t)] := by
  have hnot : ∀ k ∈ keys, ¬ k ++ [':'] <:+: "IGNORE:".toList ++ (name ++ ':' :: t) := by
    intro k hk h
    obtain ⟨hcolon, hignore⟩ := (key_spec k hk).1
    rcases (concat_infix_iff hcolon (show ':' ∉ "IGNORE".toList by decide)).mp h with h | h
    · exact hignore h
    · rcases (concat_infix_iff hcolon hname.no_colon).mp h with h | h
      · exact hkeys k hk h
      · exact ht (h.mem (by simp))
  have hblank := noBlank_of_noSpace (noSpace_reason hname hspace)
  generalize hw : "IGNORE:".toList ++ (name ++ ':' :: t) = w at hnot hblank ⊢
  have hne : w ≠ [] := by
    rw [← hw]
    simp
  have hstays : ∀ k ∈ keys, strip (k ++ [':']) [w] = [w] ∧ strip (greedy (k ++ [':'])) [w] = [w] := by
    intro k hk
    exact strip_of_missing (key_spec k hk).2 hblank hne (hnot k hk)
  have hbits : strip (bitsPattern bits) [w] = [w] := by
    cases bits
    · exact (hstays "64".toList (by decide)).2
    · exact (hstays "32".toList (by decide)).2
  rw [verifyMaster_eq, hbits,
    show strip "IMPORT:[^[:space:]]*".toList [w] = [w] from (hstays "IMPORT".toList (by decide)).2,
    show strip "CMD:[^[:space:]]*".toList [w] = [w] from (hstays "CMD".toList (by decide)).2,
    show strip "SLACKWARE:".toList [w] = [w] from (hstays "SLACKWARE".toList (by decide)).1,
    show strip "DROPLINE:".toList [w] = [w] from (hstays "DROPLINE".toList (by decide)).1,
    show strip "EXTRA:".toList [w] = [w] from (hstays "EXTRA".toList (by decide)).1,
    show strip "64:".toList [w] = [w] from (hstays "64".toList (by decide)).1,
    show strip "32:".toList [w] = [w] from (hstays "32".toList (by decide)).1]

/-! ## Both readers -/

/-- The readers take the same name from a package. Of another entry `--verify` keeps one word at
most. -/
def SameName (bits : Bits) (w : Text) : Prop :=
  match request bits w with
  | some r => verifyMaster bits [w] = [r.2] ∧ isIgnore r.2 = false
  | none => (verifyMaster bits [w]).length ≤ 1

/-- A bare name is not ignored. -/
theorem isIgnore_of_no_colon {name : Text} (h : ':' ∉ name) : isIgnore name = false := by
  refine beq_eq_false_iff_ne.mpr fun htake => h ?_
  have hmem : ':' ∈ name.take 7 := by
    rw [htake]
    decide
  exact List.mem_of_mem_take hmem

/-- Installation and verification take an entry for the same package. -/
theorem ListEntry.sameName {w : Text} (h : ListEntry w) (bits : Bits) : SameName bits w := by
  have hother : ∀ {v : Text}, NoBlank v → request bits v = none → SameName bits v := by
    intro v hv hrequest
    rw [SameName, hrequest]
    exact verifyMaster_length hv bits
  cases h with
  | @package b d name hname =>
    by_cases hb : bitsWord b = otherBits bits
    · obtain ⟨hrequest, hmaster⟩ := readers_other bits b d hname hb
      rw [SameName, hrequest, hmaster]
      exact Nat.zero_le 1
    · obtain ⟨hrequest, hmaster⟩ := readers_package bits b d hname hb
      rw [SameName, hrequest]
      exact ⟨hmaster, isIgnore_of_no_colon hname.no_colon⟩
  | @ignore t ht =>
    have hplain : PlainEntry ("IGNORE:".toList ++ t) := plain_append (by decide) ht
    exact hother hplain.noBlank rfl
  | @reason name t hname hkeys hspace ht =>
    exact hother (noBlank_of_noSpace (noSpace_reason hname hspace)) rfl
  | @command t hspace => exact hother (noBlank_of_noSpace (noSpace_append (by decide) hspace)) rfl
  | @list t hspace => exact hother (noBlank_of_noSpace (noSpace_append (by decide) hspace)) rfl

/-- Every entry of the lists can be read. -/
theorem ListEntry.readable {w : Text} (h : ListEntry w) (bits : Bits) : Readable bits w := by
  cases h with
  | @package b d name hname =>
    have hwords : PlainEntry (bitsWord b ++ dirWord d) := by
      rcases b with _ | _ | _ <;> rcases d with _ | _ | _ | _ <;> decide
    exact .inl (plain_append hwords hname.plain)
  | @ignore t ht => exact .inl (plain_append (by decide) ht)
  | @reason name t hname hkeys hspace ht =>
    refine .inr (.inr ⟨List.prefix_append _ _, fun item hitem => ?_⟩)
    rw [verifyMaster_reason hname hkeys hspace ht, List.mem_singleton] at hitem
    have hsecond : entryName item = name := by
      have hsplit : ("IGNORE:".toList ++ (name ++ ':' :: t)).splitOn ':' =
          ["IGNORE".toList, name, t] := by
        show ("IGNORE".toList ++ ':' :: (name ++ ':' :: t)).splitOn ':' = _
        rw [List.splitOn_append_cons_self_of_not_mem (by decide),
          List.splitOn_append_cons_self_of_not_mem hname.no_colon, List.splitOn_eq_singleton ht]
      rw [hitem, entryName, if_pos (show isIgnore _ = true from rfl), cutSecond, if_pos (by simp),
        hsplit]
      rfl
    rw [hsecond]
    exact hname.plain
  | @command t hspace =>
    exact .inr (.inl ⟨.inl (List.prefix_append _ _), noSpace_append (by decide) hspace⟩)
  | @list t hspace =>
    exact .inr (.inl ⟨.inr (List.prefix_append _ _), noSpace_append (by decide) hspace⟩)

end Backpack.Build
