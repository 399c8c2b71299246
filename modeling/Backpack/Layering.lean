import Backpack.Boot.Insert
import Backpack.Build.ModuleLoopTheorems

/-!
# The layers of the build and of the boot

The build stacks up the modules while it makes them, the boot stacks them up from the
medium. Both follow `order.txt`, so of two modules with the same file the same one wins.
-/

namespace Backpack

open Shell UnionFs

variable {α : Type}

/-! ## Sublists of a list without repetitions -/

/-- A part of a list without repetition is the list cut to the part's elements. -/
theorem sublist_eq_filter {β : Type} [BEq β] [LawfulBEq β] {l a : List β} (hl : l.Nodup)
    (h : a.Sublist l) : a = l.filter (· ∈ a) := by
  induction h with
  | slnil => rfl
  | @cons a l x h ih =>
    rw [List.nodup_cons] at hl
    have hx : x ∉ a := fun hx => hl.1 (h.subset hx)
    rw [List.filter_cons_of_neg (by simpa using hx)]
    exact ih hl.2
  | @cons_cons a l x h ih =>
    rw [List.nodup_cons] at hl
    rw [List.filter_cons_of_pos (by simp)]
    congr 1
    rw [ih hl.2]
    refine List.filter_congr fun y hy => ?_
    have hne : y ≠ x := by
      rintro rfl
      exact hl.1 hy
    have hmem : y ∈ l.filter (· ∈ a) ↔ y ∈ a := by simp [hy]
    simp [hne, hmem]

/-- Two sublists of a list without repetitions have their common elements in the same
order. -/
theorem filter_mem_comm {β : Type} [BEq β] [LawfulBEq β] {l a b : List β} (hl : l.Nodup)
    (ha : a.Sublist l) (hb : b.Sublist l) : a.filter (· ∈ b) = b.filter (· ∈ a) := by
  have h : ∀ {a b : List β}, a.Sublist l → a.filter (· ∈ b) = l.filter fun x => x ∈ a ∧ x ∈ b := by
    intro a b ha
    conv_lhs => rw [sublist_eq_filter hl ha]
    rw [List.filter_filter]
    refine List.filter_congr fun x _ => ?_
    simp [Bool.and_comm]
  rw [h ha, h hb]
  refine List.filter_congr fun x _ => ?_
  simp [Bool.and_comm]

/-! ## The names of the files -/

/-- A line that is a bare module name. -/
def BareName (l : Text) : Prop := Boot.PlainName l ∧ l ≠ []

instance (l : Text) : Decidable (BareName l) := inferInstanceAs (Decidable (_ ∧ _))

def moFile (l : Text) : Text := l ++ ".mo".toList

/-- The file that a line is built under when `basename` takes it for an option. -/
def hiddenFile : Text := ".txt.mo".toList

/-- Module files have different names when the modules have. -/
theorem moFile_injective {l m : Text} (h : moFile l = moFile m) : l = m :=
  List.append_cancel_right h

/-- A plain name loses no suffix. -/
theorem suffix_eq {l : Text} (h : Boot.PlainName l) : stripSuffix ".txt".toList l = l := by
  have hdot : ¬ ".txt".toList <:+ l := by
    rintro ⟨p, rfl⟩
    exact h.no_dot (List.mem_append_right p (by decide))
  unfold stripSuffix
  rw [if_neg fun hs => hdot hs.1]

/-- The build writes the file that the boot looks for. -/
theorem moduleFile_eq {l : Text} (h : BareName l) (hopt : isOption l = false) :
    Build.moduleFile l = moFile l := by
  have hname : Build.ListName l :=
    ⟨h.1.isWord, h.1.no_slash, hopt, suffix_eq h.1, h.2⟩
  unfold Build.moduleFile Build.loopList
  rw [Build.ListName.listName_eq hname, Build.ListName.listName_listPath h.1.isWord h.1.no_slash h.2]
  rfl

/-- A line that `basename` takes for an option is built from `modules/.txt`. -/
theorem moduleFile_of_option {l : Text} (h : BareName l) (hopt : isOption l = true) :
    Build.moduleFile l = hiddenFile := by
  have hname : Build.listName l = [] := by
    unfold Build.listName
    rw [words_of_noBlank h.1.isWord.noBlank h.2, List.singleton_append, basename, hopt]
    rfl
  unfold Build.moduleFile Build.loopList
  rw [hname]
  decide

/-- No module is called like the hidden file. -/
theorem moFile_ne_hidden {l : Text} (h : BareName l) : moFile l ≠ hiddenFile := by
  intro heq
  obtain rfl : l = ".txt".toList := List.append_cancel_right (heq.trans (by decide))
  exact h.1.no_dot (by decide)

/-- The line is built under its own name. -/
theorem moduleFile_eq_moFile_iff {l m : Text} (hl : BareName l) (hm : BareName m) :
    Build.moduleFile l = moFile m ↔ l = m ∧ isOption l = false := by
  cases hopt : isOption l with
  | true =>
    rw [moduleFile_of_option hl hopt]
    simp [Ne.symm (moFile_ne_hidden hm)]
  | false =>
    rw [moduleFile_eq hl hopt]
    simp only [and_true]
    exact ⟨moFile_injective, congrArg moFile⟩

/-! ## The build -/

section
variable {env : Build.Env α} {mo : Text → Option (DirTree α)}

/-- The branches belong to the lines `s`, last line first, and each one shows what the file of
its module holds. -/
structure Stacked (disk : Build.Disk α) (s : List Text) : Prop where
  names : disk.layers.map Prod.fst = (s.map Build.moduleFile).reverse
  trees : ∀ x ∈ disk.layers, x.1 ≠ hiddenFile → disk.mo x.1 = some x.2

namespace Stacked

variable {disk : Build.Disk α} {s : List Text} {line : Text} (h : Stacked disk s)
include h

/-- No branch has the name of a new line's file yet, unless it is the hidden one. -/
theorem fresh (hs : ∀ l ∈ s, BareName l) (hline : BareName line) (hnew : line ∉ s) :
    ∀ x ∈ disk.layers, x.1 ≠ hiddenFile → x.1 ≠ Build.moduleFile line := by
  intro x hx hhid heq
  have hmem : x.1 ∈ (s.map Build.moduleFile).reverse := h.names ▸ List.mem_map_of_mem hx
  rcases List.mem_map.mp (List.mem_reverse.mp hmem) with ⟨l, hl, hlx⟩
  rw [heq] at hlx hhid
  cases hopt : isOption line with
  | true => exact hhid (moduleFile_of_option hline hopt)
  | false =>
    rw [moduleFile_eq hline hopt] at hlx
    have hsame := (moduleFile_eq_moFile_iff (hs l hl) hline).mp hlx
    exact hnew (hsame.1 ▸ hl)

/-- A mounted module lies over the modules before it. -/
theorem mountModule {i : ℕ} {t : DirTree α} (ht : disk.mo (Build.moduleFile line) = some t) :
    Stacked (Build.mountModule env i (Build.moduleFile line) t disk)
      (if env.mounts i then s ++ [line] else s) := by
  unfold Build.mountModule
  split_ifs with hm
  · refine ⟨by simp [h.names], ?_⟩
    intro x hx hhid
    rcases List.mem_cons.mp hx with rfl | hx
    · exact ht
    · exact h.trees x hx hhid
  · exact h

/-- Writing a new module file leaves the stacked ones. -/
theorem update (hfresh : ∀ x ∈ disk.layers, x.1 ≠ hiddenFile → x.1 ≠ Build.moduleFile line)
    (t : Option (DirTree α)) :
    Stacked { disk with mo := Function.update disk.mo (Build.moduleFile line) t } s := by
  refine ⟨h.names, ?_⟩
  intro x hx hhid
  show Function.update disk.mo (Build.moduleFile line) t x.1 = some x.2
  rw [Function.update_of_ne (hfresh x hx hhid)]
  exact h.trees x hx hhid

/-- An iteration adds the branch of its line, or none when something fails. -/
theorem iteration {i : ℕ} {p : Proc (Build.Disk α) Build.Vars} (hp : p.files = disk)
    (hfresh : ∀ x ∈ disk.layers, x.1 ≠ hiddenFile → x.1 ≠ Build.moduleFile line) :
    ∃ s', (s' = s ∨ s' = s ++ [line]) ∧ Stacked (Build.iteration env (line, i) p).files s' ∧
      ((Build.iteration env (line, i) p).exited = false → env.mounts i = true →
        s' = s ++ [line]) := by
  subst hp
  have hmounted : (if env.mounts i then s ++ [line] else s) = s ∨
      (if env.mounts i then s ++ [line] else s) = s ++ [line] := by
    split_ifs
    · exact Or.inr rfl
    · exact Or.inl rfl
  by_cases hskip : Build.Skips env p.files.mo line
  · rcases @Build.iteration_of_skips α env line i _ hskip with ⟨t, ht, heq⟩
    rw [heq]
    exact ⟨_, hmounted, h.mountModule ht, fun _ hm => if_pos hm⟩
  rw [Build.iteration_of_builds hskip]
  split_ifs with hpack
  · have hstack := @(h.update hfresh (some (Build.installed env line p.files))).mountModule
      α env _ s line i _ (Function.update_self _ _ _)
    have hpacked : Stacked (Build.packed env line i p.files)
        (if env.mounts i then s ++ [line] else s) := by
      rw [Build.mountModule_eq] at hstack
      rw [Build.packed, Build.mountModule_eq]
      exact ⟨hstack.names, hstack.trees⟩
    exact ⟨_, hmounted, hpacked, fun _ hm => if_pos hm⟩
  · have hstack := h.update hfresh none
    exact ⟨s, Or.inl rfl, ⟨hstack.names, hstack.trees⟩, fun hno => absurd hno (by decide)⟩

end Stacked

/-- The stack of the loop belongs to some of its lines, and to all of them when nothing
fails. -/
theorem run_stacked {lines : List Text} (hbare : ∀ l ∈ lines, BareName l) (hnodup : lines.Nodup) :
    ∃ s, s.Sublist lines ∧ Stacked (Build.run env mo lines).files s ∧
      ((Build.run env mo lines).exited = false → (∀ i, env.mounts i = true) → s = lines) := by
  induction lines using List.reverseRecOn with
  | nil =>
    have hempty : Stacked (Build.run env mo []).files [] :=
      ⟨rfl, by simp [Build.run, Build.atLoop, forEach]⟩
    exact ⟨[], List.Sublist.refl _, hempty, fun _ _ => rfl⟩
  | append_singleton lines line ih =>
    have hbare' : ∀ l ∈ lines, BareName l := fun l hl => hbare l (List.mem_append_left _ hl)
    have hnew : line ∉ lines := by
      intro hl
      exact (List.nodup_append.mp hnodup).2.2 line hl line (List.mem_singleton_self line) rfl
    rcases ih hbare' (List.nodup_append.mp hnodup).1 with ⟨s, hs, hstack, hall⟩
    cases hexit : (Build.run env mo lines).exited with
    | true =>
      rw [Build.run_append_of_exited hexit]
      refine ⟨s, hs.trans (List.sublist_append_left _ _), hstack, fun hno => ?_⟩
      rw [hexit] at hno
      exact absurd hno (by decide)
    | false =>
      rw [Build.run_concat hexit]
      have hfresh := hstack.fresh (fun l hl => hbare' l (hs.subset hl)) (hbare line (by simp))
        fun hl => hnew (hs.subset hl)
      rcases @hstack.iteration α env _ s line lines.length _ rfl hfresh with
        ⟨s', hs', hstack', hlast⟩
      refine ⟨s', ?_, hstack', fun hno hmounts => ?_⟩
      · rcases hs' with rfl | rfl
        · exact hs.trans (List.sublist_append_left _ _)
        · exact hs.append (List.Sublist.refl _)
      · rw [hlast hno (hmounts _), hall hexit hmounts]

end

/-! ## The boot -/

/-- The module of a line on the medium. -/
def baseModule (l : Text) : Boot.Module := ⟨some "base".toList, l⟩

/-- The medium holds the modules that the build has made, in `base/`. -/
def HoldsBuilt (d : Boot.DataDir) (order : Text) (mo : Text → Option (DirTree α)) : Prop :=
  ∀ m, m ∈ d.files ↔ m.dir = some "base".toList ∧ ∃ l ∈ readValues order,
    m.fileName = Build.moduleFile l ∧ (mo (Build.moduleFile l)).isSome = true

section
variable {d : Boot.DataDir} {load order : Text} {mo : Text → Option (DirTree α)}
  (hbare : ∀ l ∈ fileLines order, BareName l) (hnodup : (fileLines order).Nodup)
  (hmedium : HoldsBuilt d order mo)

include hbare in
/-- On lines that are bare names, the two readers see the same. -/
theorem readValues_bare : readValues order = readLines order := by
  apply readValues_eq_readLines
  · intro hb
    rcases mem_fileLines_of_mem hb with h | ⟨l, hl, hc⟩
    · exact absurd h (by decide)
    · exact (hbare l hl).1.isWord.no_backslash hc
  · intro l hl
    exact (hbare l (List.mem_append_left _ hl)).1.isWord.noBlank

include hbare hmedium in
/-- A line with a module on the medium is built under its own name. -/
theorem not_option_of_baseModule {l : Text} (hl : l ∈ readLines order)
    (h : baseModule l ∈ d.files) : isOption l = false := by
  rcases ((hmedium _).mp h).2 with ⟨l', hl', hfile, -⟩
  rw [readValues_bare hbare] at hl'
  have hbare' : ∀ l ∈ readLines order, BareName l := fun l hl =>
    hbare l (List.mem_append_left _ hl)
  have heq := (moduleFile_eq_moFile_iff (hbare' l' hl') (hbare' l hl)).mp hfile.symm
  rw [← heq.1]
  exact heq.2

/-- The module is on the medium and not dropped as optional. -/
def Loaded (d : Boot.DataDir) (load l : Text) : Prop :=
  baseModule l ∈ d.files ∧ Boot.drops load ((baseModule l).path d.root) = false

instance (d : Boot.DataDir) (load l : Text) : Decidable (Loaded d load l) :=
  inferInstanceAs (Decidable (_ ∧ _))

/-- A list without repetition in which only one element can be. -/
theorem eq_of_nodup_of_mem {β : Type} [BEq β] [LawfulBEq β] {l : List β} {a : β} (hl : l.Nodup)
    (h : ∀ x ∈ l, x = a) : l = if a ∈ l then [a] else [] := by
  rcases l with _ | ⟨x, _ | ⟨y, l⟩⟩
  · rfl
  · simp [h x]
  · have hx := h x (by simp)
    have hy := h y (by simp)
    simp [hx, hy] at hl

/-- Only the file of the line itself matches `line.mo`. -/
theorem pathMatch_bare {l : Text} (hl : BareName l) (m : Boot.Module) :
    pathMatch (l ++ ".mo".toList) m.fileName = true ↔ m.name = l := by
  have hord : ∀ c ∈ l ++ ".mo".toList, globOrdinary c = true := fun c hc =>
    (hl.1.isWord.append Boot.isWord_mo c hc).2
  constructor
  · intro h
    rw [pathMatch, Bool.and_eq_true, globMatch_ordinary hord] at h
    exact List.append_cancel_right h.1
  · rintro rfl
    exact (Boot.pathMatch_line hl.1 hl.1 hl.2).mpr rfl

include hmedium in
/-- A medium that was built has its modules in `base`. -/
theorem eq_baseModule {m : Boot.Module} (hm : m ∈ d.files) : m = baseModule m.name := by
  have hdir := ((hmedium m).mp hm).1
  unfold baseModule
  rw [← hdir]

include hmedium in
/-- What the first loop prints for one line. -/
theorem lsModules_bare {l : Text} (hl : BareName l) :
    (Boot.lsModules d.root d.files (l ++ ".mo".toList)).filter (fun p => !Boot.drops load p) =
      if Loaded d load l then [(baseModule l).path d.root] else [] := by
  have hmem : ∀ p, p ∈ (Boot.lsModules d.root d.files (l ++ ".mo".toList)).filter
      (fun p => !Boot.drops load p) ↔ p = (baseModule l).path d.root ∧ Loaded d load l := by
    intro p
    rw [List.mem_filter, Boot.mem_lsModules, Bool.not_eq_true']
    constructor
    · rintro ⟨⟨m, hm, rfl, hmatch, -⟩, hdrop⟩
      obtain rfl := (pathMatch_bare hl m).mp hmatch
      have heq := eq_baseModule hmedium hm
      rw [heq] at hm hdrop
      exact ⟨congrArg (Boot.Module.path d.root) heq, hm, hdrop⟩
    · rintro ⟨rfl, hm, hdrop⟩
      have hdir : (some "base".toList).all (pathMatch ['*']) = true := by decide
      exact ⟨⟨baseModule l, hm, rfl, (pathMatch_bare hl _).mpr rfl, hdir⟩, hdrop⟩
  have hlist := eq_of_nodup_of_mem ((Boot.nodup_lsModules (d := d) (l ++ ".mo".toList)).filter
    fun p => !Boot.drops load p) fun p hp => ((hmem p).mp hp).1
  rw [hlist]
  by_cases h : Loaded d load l
  · rw [if_pos ((hmem _).mpr ⟨rfl, h⟩), if_pos h]
  · rw [if_neg fun hp => h ((hmem _).mp hp).2, if_neg h]

include hbare hmedium in
/-- The second loop has nothing left to print. -/
theorem otherPaths_eq_nil : Boot.otherPaths d.root d.files load order = [] := by
  rw [List.eq_nil_iff_forall_not_mem]
  intro p hp
  rw [Boot.otherPaths, List.mem_filter, Boot.mem_lsModules, Bool.and_eq_true,
    Bool.not_eq_true'] at hp
  rcases hp with ⟨⟨m, hm, rfl, hmatch, -⟩, hin, -⟩
  rcases ((hmedium m).mp hm).2 with ⟨l, hl, hfile, -⟩
  rw [readValues_bare hbare] at hl
  have hlb : BareName l := hbare l (List.mem_append_left _ hl)
  cases hopt : isOption l with
  | true =>
    -- a hidden file is not found by `*.mo`
    rw [hfile, moduleFile_of_option hlb hopt] at hmatch
    exact absurd hmatch (by decide)
  | false =>
    rw [moduleFile_eq hlb hopt] at hfile
    obtain rfl : m.name = l := List.append_cancel_right hfile
    rw [(Boot.inOrder_iff hm hlb.1 hlb.2).mpr (List.mem_append_left _ hl)] at hin
    exact absurd hin (by decide)

include hbare hmedium in
/-- `list_modules` prints the loaded modules in the order of the file. -/
theorem printedPaths_eq : Boot.printedPaths d.root d.files load order =
    ((readLines order).filter fun l => Loaded d load l).map
      fun l => (baseModule l).path d.root := by
  have hline : ∀ ls : List Text, (∀ l ∈ ls, BareName l) →
      (ls.flatMap fun l => (Boot.lsModules d.root d.files (l ++ ".mo".toList)).filter
        fun p => !Boot.drops load p) =
      (ls.filter fun l => Loaded d load l).map fun l => (baseModule l).path d.root := by
    intro ls hls
    induction ls with
    | nil => rfl
    | cons l ls ih =>
      rw [List.flatMap_cons, lsModules_bare hmedium (hls l List.mem_cons_self),
        ih fun m hm => hls m (List.mem_cons_of_mem l hm)]
      by_cases h : Loaded d load l
      · rw [if_pos h, List.filter_cons_of_pos (by simpa using h)]
        rfl
      · rw [if_neg h, List.filter_cons_of_neg (by simpa using h)]
        rfl
  rw [Boot.printedPaths, otherPaths_eq_nil hbare hmedium, List.append_nil, Boot.orderedPaths,
    readValues_bare hbare]
  exact hline _ fun l hl => hbare l (List.mem_append_left _ hl)

end

/-! ## The two stacks -/

/-- The branches of a boot: the file of each module and what it shows, index 1 first. -/
def bootLayers (s : Boot.Images α) : List (Text × DirTree α) :=
  s.branches.map fun b => (lastComponent b.source, b.tree)

/-- The modules that both stacks have are in the same order, with the same contents; of two
of them the same one is seen at every path. -/
structure LayersAgree (loaded built : List (Text × DirTree α)) : Prop where
  restricted : loaded.filter (fun x => x.1 ∈ built.map Prod.fst) =
    built.filter fun x => x.1 ∈ loaded.map Prod.fst
  wins : ∀ a b, a ∈ loaded.map Prod.fst → a ∈ built.map Prod.fst → b ∈ loaded.map Prod.fst →
    b ∈ built.map Prod.fst → ∀ p,
      lookup ((loaded.filter fun x => x.1 = a ∨ x.1 = b).map Prod.snd) p =
        lookup ((built.filter fun x => x.1 = a ∨ x.1 = b).map Prod.snd) p

/-- Layers agree when each side, cut to the names of the other, is the same. -/
theorem LayersAgree.of_restricted {loaded built : List (Text × DirTree α)}
    (h : loaded.filter (fun x => x.1 ∈ built.map Prod.fst) =
      built.filter fun x => x.1 ∈ loaded.map Prod.fst) : LayersAgree loaded built := by
  refine ⟨h, fun a b hal hab hbl hbb p => ?_⟩
  have hpick : ∀ {s t : List (Text × DirTree α)}, a ∈ t.map Prod.fst → b ∈ t.map Prod.fst →
      (s.filter fun x => x.1 = a ∨ x.1 = b) =
        (s.filter fun x => x.1 ∈ t.map Prod.fst).filter fun x => x.1 = a ∨ x.1 = b := by
    intro s t ha hb
    rw [List.filter_filter]
    refine List.filter_congr fun x _ => ?_
    by_cases hx : x.1 = a ∨ x.1 = b
    · have hmem : x.1 ∈ t.map Prod.fst := by rcases hx with h | h <;> rw [h] <;> assumption
      simp only [hx, hmem, decide_true, Bool.and_true]
    · simp only [hx, decide_false, Bool.false_and]
  rw [@hpick loaded built hab hbb, h, ← @hpick built loaded hal hbl]

/-- What a module shows, by the name of its file. -/
def fileTree (mo : Text → Option (DirTree α)) (name : Text) : Text × DirTree α :=
  (name, (mo name).getD emptyTree)

/-- The layers are named like the files, last first. -/
theorem map_fst_fileTree (mo : Text → Option (DirTree α)) (a : List Text) :
    (a.map fun l => fileTree mo (moFile l)).reverse.map Prod.fst = (a.map moFile).reverse := by
  rw [List.map_reverse, List.map_map]
  rfl

section
variable {lines a b : List Text} (hbare : ∀ l ∈ lines, BareName l) (ha : a.Sublist lines)
  (hb : b.Sublist lines) {layers : List (Text × DirTree α)} {mo : Text → Option (DirTree α)}
  (hnames : layers.map Prod.fst = (b.map Build.moduleFile).reverse)

include hbare ha hb in
theorem mem_map_moduleFile {l : Text} (hl : l ∈ a) (hopt : isOption l = false) :
    moFile l ∈ b.map Build.moduleFile ↔ l ∈ b := by
  rw [List.mem_map]
  constructor
  · rintro ⟨l', hl', heq⟩
    rw [← ((moduleFile_eq_moFile_iff (hbare l' (hb.subset hl')) (hbare l (ha.subset hl))).mp heq).1]
    exact hl'
  · intro h
    exact ⟨l, h, moduleFile_eq (hbare l (ha.subset hl)) hopt⟩

include hbare ha hb hnames in
/-- The modules of a boot that the build has mounted. -/
theorem filter_boot (hopt : ∀ l ∈ a, isOption l = false) :
    ((a.map fun l => fileTree mo (moFile l)).reverse.filter fun x => x.1 ∈ layers.map Prod.fst) =
      ((a.filter (· ∈ b)).map fun l => fileTree mo (moFile l)).reverse := by
  rw [List.filter_reverse, List.filter_map, hnames]
  congr 2
  refine List.filter_congr fun l hl => ?_
  have hiff := mem_map_moduleFile hbare ha hb hl (hopt l hl)
  show decide (moFile l ∈ (b.map Build.moduleFile).reverse) = decide (l ∈ b)
  rw [decide_eq_decide, List.mem_reverse, hiff]

include hbare ha hb hnames in
/-- The modules of the build that a boot has loaded. -/
theorem filter_build (hopt : ∀ l ∈ a, isOption l = false)
    (htrees : ∀ x ∈ layers, x.1 ≠ hiddenFile → mo x.1 = some x.2) :
    (layers.filter fun x => x.1 ∈ (a.map fun l => fileTree mo (moFile l)).reverse.map Prod.fst) =
      ((b.filter (· ∈ a)).map fun l => fileTree mo (moFile l)).reverse := by
  rw [map_fst_fileTree]
  have hmem : ∀ {l : Text}, l ∈ b → (Build.moduleFile l ∈ a.map moFile ↔ l ∈ a) := by
    intro l hl
    rw [List.mem_map]
    constructor
    · rintro ⟨l', hl', heq⟩
      rw [((moduleFile_eq_moFile_iff (hbare l (hb.subset hl)) (hbare l' (ha.subset hl'))).mp
        heq.symm).1]
      exact hl'
    · intro h
      exact ⟨l, h, (moduleFile_eq (hbare l (ha.subset h)) (hopt l h)).symm⟩
  -- what a branch shows is determined by its name
  have hself : ∀ x ∈ layers.filter (fun x => x.1 ∈ (a.map moFile).reverse), x = fileTree mo x.1 := by
    intro x hx
    have hx' := List.mem_filter.mp hx
    have hname : x.1 ∈ a.map moFile := by simpa using hx'.2
    rcases List.mem_map.mp hname with ⟨l, hl, hlx⟩
    have hhid : x.1 ≠ hiddenFile := hlx ▸ moFile_ne_hidden (hbare l (ha.subset hl))
    rw [fileTree, htrees x hx'.1 hhid]
    rfl
  calc layers.filter (fun x => x.1 ∈ (a.map moFile).reverse)
      = (layers.filter fun x => x.1 ∈ (a.map moFile).reverse).map fun x => fileTree mo x.1 := by
        conv_lhs => rw [← List.map_id (layers.filter _)]
        exact List.map_congr_left hself
    _ = ((layers.map Prod.fst).filter fun n => n ∈ (a.map moFile).reverse).map (fileTree mo) := by
        rw [List.filter_map, List.map_map]
        rfl
    _ = ((b.filter (· ∈ a)).map fun l => fileTree mo (moFile l)).reverse := by
        rw [hnames, List.filter_reverse, List.filter_map, List.map_reverse, List.map_map]
        congr 1
        have hcongr : b.filter ((fun n => decide (n ∈ (a.map moFile).reverse)) ∘
            Build.moduleFile) = b.filter (· ∈ a) := by
          refine List.filter_congr fun l hl => ?_
          show decide (Build.moduleFile l ∈ (a.map moFile).reverse) = decide (l ∈ a)
          rw [decide_eq_decide, List.mem_reverse, hmem hl]
        rw [hcongr]
        refine List.map_congr_left fun l hl => ?_
        have hla : l ∈ a := by simpa using (List.mem_filter.mp hl).2
        show fileTree mo (Build.moduleFile l) = _
        rw [moduleFile_eq (hbare l (ha.subset hla)) (hopt l hla)]

end

section
variable {env : Build.Env α} {mo₀ : Text → Option (DirTree α)} {d : Boot.DataDir} {load order : Text}
  {k : Boot.Mounter α}
  (hbare : ∀ l ∈ fileLines order, BareName l) (hnodup : (fileLines order).Nodup)

/-- The files after the module loop of a build. -/
def built (env : Build.Env α) (mo₀ : Text → Option (DirTree α)) (order : Text) : Build.Disk α :=
  (Build.run env mo₀ (readValues order)).files

/-- The stack of a boot that starts without branches. -/
def booted (k : Boot.Mounter α) (images : Text) (d : Boot.DataDir) (load order : Text)
    (existing : List Text) : List (Text × DirTree α) :=
  bootLayers (Boot.unionInsertModules k images (Boot.listModulesFor d.root d.files load order)
    ⟨existing, []⟩)

/-- A printed path ends with the name of the module's file. -/
theorem lastComponent_baseModule {l : Text} (hl : BareName l) :
    lastComponent ((baseModule l).path d.root) = moFile l := by
  have hslash : '/' ∉ moFile l := by
    intro h
    rcases List.mem_append.mp h with h | h
    · exact hl.1.no_slash h
    · exact absurd h (by decide)
  show lastComponent (d.root ++ '/' :: "base".toList ++ '/' :: moFile l) = moFile l
  exact lastComponent_append hslash (by simp [moFile])

include hbare in
/-- On a built medium the boot prints the modules in the order of order.txt. -/
theorem map_lastComponent_printedPaths
    (hmedium : HoldsBuilt d order (built env mo₀ order).mo) :
    (Boot.printedPaths d.root d.files load order).map lastComponent =
      ((readLines order).filter fun l => Loaded d load l).map moFile := by
  rw [printedPaths_eq hbare hmedium, List.map_map]
  refine List.map_congr_left fun l hl => ?_
  exact lastComponent_baseModule (hbare l (List.mem_append_left _ (List.mem_of_mem_filter hl)))

include hbare in
/-- The stack of the boot: some of the loaded lines, last line first. -/
theorem booted_eq (hmedium : HoldsBuilt d order (built env mo₀ order).mo)
    (hmount : ∀ m ∈ d.files, k.mount (m.path d.root) = (built env mo₀ order).mo m.fileName)
    (images : Text) (existing : List Text) :
    ∃ ls, ls.Sublist ((readLines order).filter fun l => Loaded d load l) ∧
      booted k images d load order existing =
        (ls.map fun l => fileTree (built env mo₀ order).mo (moFile l)).reverse ∧
      ((∀ t, k.inserts t = true) → ls = (readLines order).filter fun l => Loaded d load l) := by
  rcases @Boot.foldl_insertModule α k images
    (Boot.printedPaths d.root d.files load order) ⟨existing, []⟩ with ⟨qs, hqs, heq, hall⟩
  rw [printedPaths_eq hbare hmedium] at hqs hall
  rcases List.sublist_map_iff.mp hqs with ⟨ls, hls, rfl⟩
  refine ⟨ls, hls, ?_, fun h => ?_⟩
  · have hmap : bootLayers (Boot.unionInsertModules k images
        (Boot.listModulesFor d.root d.files load order) ⟨existing, []⟩) =
        ((Boot.unionInsertModules k images (Boot.listModulesFor d.root d.files load order)
          ⟨existing, []⟩).branches.map fun b => (b.source, b.tree)).map
          fun x => (lastComponent x.1, x.2) := by
      simp [bootLayers]
    rw [booted, hmap, Boot.unionInsertModules_eq, heq, List.map_nil, List.append_nil,
      List.map_reverse, List.map_map, List.map_map]
    congr 1
    refine List.map_congr_left fun l hl => ?_
    have hl' := List.mem_filter.mp (hls.subset hl)
    have hloaded : Loaded d load l := by simpa using hl'.2
    have hlb : BareName l := hbare l (List.mem_append_left _ hl'.1)
    show (lastComponent _, (k.mount ((baseModule l).path d.root)).getD emptyTree) = _
    rw [hmount _ hloaded.1, lastComponent_baseModule hlb]
    rfl
  · have hlen := congrArg List.length (hall h)
    rw [List.length_map, List.length_map] at hlen
    exact hls.eq_of_length hlen

include hbare hnodup in
/-- The boot stacks up the loaded modules as the build did, whichever modules were rebuilt or
only mounted, and whichever mounts failed; when nothing failed, the stack of the boot is
that of the build without the modules that `list_modules` left out. -/
theorem layers_agree (hmedium : HoldsBuilt d order (built env mo₀ order).mo)
    (hmount : ∀ m ∈ d.files, k.mount (m.path d.root) = (built env mo₀ order).mo m.fileName)
    (images : Text) (existing : List Text) :
    LayersAgree (booted k images d load order existing) (built env mo₀ order).layers ∧
      ((Build.run env mo₀ (readValues order)).exited = false → (∀ i, env.mounts i = true) →
        (∀ t, k.inserts t = true) → booted k images d load order existing =
          (built env mo₀ order).layers.filter fun x => x.1 ∈
            (Boot.printedPaths d.root d.files load order).map lastComponent) := by
  have hread := readValues_bare hbare
  have hbare' : ∀ l ∈ readLines order, BareName l := fun l hl =>
    hbare l (List.mem_append_left _ hl)
  have hnodup' : (readLines order).Nodup := hnodup.sublist (List.sublist_append_left _ _)
  rcases @booted_eq α env mo₀ d load order k hbare hmedium hmount images existing with
    ⟨a, ha, hboot, halla⟩
  rcases @run_stacked α env mo₀ (readValues order) (hread ▸ hbare') (hread ▸ hnodup') with
    ⟨b, hb, hstack, hallb⟩
  rw [hread] at hb
  have ha' : a.Sublist (readLines order) := ha.trans List.filter_sublist
  have hopt : ∀ l ∈ a, isOption l = false := by
    intro l hl
    have hloaded : Loaded d load l := by simpa using (List.mem_filter.mp (ha.subset hl)).2
    exact not_option_of_baseModule hbare hmedium (ha'.subset hl) hloaded.1
  have hfirst := @filter_boot α _ a b hbare' ha' hb _ (built env mo₀ order).mo hstack.names hopt
  have hsecond := filter_build hbare' ha' hb hstack.names hopt hstack.trees
  have hsame := filter_mem_comm hnodup' ha' hb
  rw [hboot]
  refine ⟨LayersAgree.of_restricted ?_, fun hexit hmounts hins => ?_⟩
  · rw [hsame] at hfirst
    exact hfirst.trans hsecond.symm
  · -- every line has its branch, and what is printed are the lines `a`
    have hprinted : ∀ n, n ∈ (Boot.printedPaths d.root d.files load order).map lastComponent ↔
        n ∈ (a.map fun l => fileTree (built env mo₀ order).mo (moFile l)).reverse.map Prod.fst := by
      intro n
      rw [map_lastComponent_printedPaths hbare hmedium, map_fst_fileTree, List.mem_reverse,
        halla hins]
    rw [List.filter_congr fun x _ => decide_eq_decide.mpr (hprinted x.1)]
    refine Eq.trans ?_ hsecond.symm
    have hlines : b = readLines order := (hallb hexit hmounts).trans hread
    rw [hlines, ← sublist_eq_filter hnodup' ha']
    rfl

end

/-! ## Two modules -/

/-- A build in which every module creates one file, and everything succeeds. -/
def plainEnv : Build.Env Unit where
  fast := false
  install := fun list _ _ => [.put ["etc".toList] list ()]
  packs := fun _ => true
  mounts := fun _ => true
  kernel := true

def twoLines : Text := unlines ["base".toList, "kde".toList]

def twoModules : Boot.DataDir where
  root := "/mnt/sda1".toList
  files := [baseModule "base".toList, baseModule "kde".toList]
  nodup := by decide
  root_abs := rfl
  root_word := by decide
  dir_word := by decide
  name_word := by decide

theorem fileLines_twoLines : fileLines twoLines = ["base".toList, "kde".toList] :=
  fileLines_unlines (by decide)

theorem twoLines_bare : ∀ l ∈ fileLines twoLines, BareName l := by
  rw [fileLines_twoLines]
  decide

/-- The medium of the two modules holds what was built. -/
theorem twoModules_holdsBuilt :
    HoldsBuilt twoModules twoLines (built plainEnv (fun _ => none) twoLines).mo := by
  have hread : readValues twoLines = ["base".toList, "kde".toList] := by decide
  have hbuilt : ∀ l ∈ readValues twoLines, Build.moduleFile l = moFile l ∧
      ((built plainEnv (fun _ => none) twoLines).mo (Build.moduleFile l)).isSome = true := by
    rw [hread]
    decide
  intro m
  constructor
  · intro hm
    have hname : m = baseModule m.name ∧ m.name ∈ readValues twoLines := by
      rcases List.mem_pair.mp hm with rfl | rfl
      · exact ⟨rfl, by decide⟩
      · exact ⟨rfl, by decide⟩
    have hmo := hbuilt m.name hname.2
    exact ⟨congrArg Boot.Module.dir hname.1, m.name, hname.2, hmo.1.symm, hmo.2⟩
  · rintro ⟨hdir, l, hl, hfile, -⟩
    rw [(hbuilt l hl).1] at hfile
    obtain rfl : m.name = l := List.append_cancel_right hfile
    have hm : m = baseModule m.name := by
      unfold baseModule
      rw [← hdir]
    rw [hread] at hl
    rw [hm]
    rcases List.mem_pair.mp hl with h | h
    · rw [h]
      exact List.mem_cons_self
    · rw [h]
      exact List.mem_cons_of_mem _ (List.mem_singleton_self _)

/-- The kernel that mounts the two modules. -/
def twoMounter : Boot.Mounter Unit where
  mount := fun p => (built plainEnv (fun _ => none) twoLines).mo (lastComponent p)
  inserts := fun _ => true

theorem twoModules_agree :
    LayersAgree (booted twoMounter [] twoModules [] twoLines [])
        (built plainEnv (fun _ => none) twoLines).layers ∧
      ((Build.run plainEnv (fun _ => none) (readValues twoLines)).exited = false →
        (∀ i, plainEnv.mounts i = true) → (∀ t, twoMounter.inserts t = true) →
        booted twoMounter [] twoModules [] twoLines [] =
          (built plainEnv (fun _ => none) twoLines).layers.filter fun x => x.1 ∈
            (Boot.printedPaths twoModules.root twoModules.files [] twoLines).map lastComponent) := by
  refine layers_agree twoLines_bare ?_ twoModules_holdsBuilt ?_ [] []
  · rw [fileLines_twoLines]
    decide
  · intro m hm
    have hlast : lastComponent (m.path twoModules.root) = m.fileName := by
      rcases List.mem_pair.mp hm with rfl | rfl
      · decide
      · decide
    have hmount : twoMounter.mount (m.path twoModules.root) =
        (built plainEnv (fun _ => none) twoLines).mo (lastComponent (m.path twoModules.root)) := rfl
    rw [hmount, hlast]

end Backpack
