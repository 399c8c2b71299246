import Backpack.Boot.Init

/-!
# Booting from RAM

The modules are listed twice when they are copied to RAM, the second time in a directory
without subdirectories. What comes out is the system that the medium would have booted
exactly when no file name is copied twice, the subdirectories do not count for the order, and
there is nothing in `rootcopy/`.
-/

namespace Backpack.Boot

open Shell UnionFs

/-! ## The listing, one call of `ls` at a time -/

/-- The calls of `ls`: one for each line of `/order.txt`, and the one that lists the rest. -/
def slots (order : Text) : List (Option Text) := (readValues order).map some ++ [none]

/-- A call of `ls` is responsible for the file name. -/
def takes (order : Text) : Option Text → Text → Bool
  | some line, f => pathMatch (line ++ ".mo".toList) f
  | none, f => pathMatch "*.mo".toList f &&
      noOutput (grep .basic ('^' :: (stripSuffix ".mo".toList f ++ ['$'])) order)

/-- What a call of `ls` contributes to the list of modules. -/
def group (root : Text) (files : List Module) (load order : Text) (s : Option Text) :
    List Module :=
  files.filter fun x => takes order s x.fileName && x.dir.all (pathMatch ['*']) &&
    !drops load (x.path root)

/-- The order in which `ls` prints the modules. -/
def byPath (root : Text) (ms : List Module) : List Module :=
  ms.insertionSort fun x y => byteLe (x.path root) (y.path root) = true

/-- The order in which `ls` would print them if they were in one directory. -/
def byName (ms : List Module) : List Module :=
  ms.insertionSort fun x y => byteLe x.fileName y.fileName = true

/-- Sorting the paths is sorting the modules by path. -/
theorem lsSort_map_path (root : Text) (ms : List Module) :
    lsSort (ms.map (Module.path root)) = (byPath root ms).map (Module.path root) := by
  unfold lsSort byPath
  rw [List.map_insertionSort _ fun s t : Text => byteLe s t = true]
  exact fun _ _ _ _ => Iff.rfl

section
variable (d : DataDir) (load order : Text)

/-- list_modules prints slot by slot, and in each slot by path. -/
theorem printedPaths_slots : printedPaths d.root d.files load order =
    (slots order).flatMap fun s =>
      (byPath d.root (group d.root d.files load order s)).map (Module.path d.root) := by
  have hline : ∀ line, ((lsModules d.root d.files (line ++ ".mo".toList)).filter
      fun p => !drops load p) = lsSort ((group d.root d.files load order (some line)).map
        (Module.path d.root)) := by
    intro line
    rw [lsModules, lsSort_filter, List.filter_map, List.filter_filter, group]
    congr 2
    apply List.filter_congr
    intro x _
    simp only [takes, Function.comp_apply, Bool.and_comm]
  have hrest : otherPaths d.root d.files load order =
      lsSort ((group d.root d.files load order none).map (Module.path d.root)) := by
    rw [otherPaths, lsModules, lsSort_filter, List.filter_map, List.filter_filter, group]
    congr 2
    apply List.filter_congr
    intro x hx
    simp only [takes, Function.comp_apply, inOrder, modName_fileName hx, Bool.not_not]
    cases pathMatch "*.mo".toList x.fileName <;> cases x.dir.all (pathMatch ['*']) <;>
      cases drops load (x.path d.root) <;> simp
  rw [printedPaths, orderedPaths, hrest, slots, List.flatMap_append, List.flatMap_map]
  simp only [hline, lsSort_map_path, List.flatMap_cons, List.flatMap_nil, List.append_nil]

/-- A path is printed in one of the slots. -/
theorem mem_printedPaths_slots {p : Text} : p ∈ printedPaths d.root d.files load order ↔
    ∃ s ∈ slots order, ∃ x ∈ group d.root d.files load order s, p = x.path d.root := by
  rw [printedPaths_slots]
  simp only [List.mem_flatMap, List.mem_map, byPath, List.mem_insertionSort]
  refine exists_congr fun s => and_congr_right fun _ => exists_congr fun x => ?_
  exact and_congr_right fun _ => eq_comm

end

/-! ## Copying the modules -/

section
variable {α : Type} (contents : Text → DirTree α)

/-- A copy replaces the file of its name and leaves the others. -/
theorem lookup_cpInto (ram : List (Text × DirTree α)) (name f : Text) (t : DirTree α) :
    (cpInto ram name t).lookup f = if f = name then some t else ram.lookup f := by
  unfold cpInto
  rw [List.lookup_cons]
  by_cases hf : f = name
  · simp [hf]
  · rw [beq_false_of_ne hf, if_neg hf]
    show (ram.filter fun x => x.1 ≠ name).lookup f = ram.lookup f
    induction ram with
    | nil => rfl
    | cons x ram ih =>
      rcases x with ⟨g, u⟩
      by_cases hg : g = name
      · have hfg : (f == g) = false := beq_false_of_ne (hg ▸ hf)
        rw [List.filter_cons_of_neg (by simp [hg]), ih, List.lookup_cons, hfg]
      · rw [List.filter_cons_of_pos (by simp [hg]), List.lookup_cons, List.lookup_cons, ih]

/-- The files in RAM after copying `ps`: one for each name. -/
theorem copied_names (ps : List Text) :
    let ram := ps.foldl (fun ram p => cpInto ram (lastComponent p) (contents p)) []
    (ram.map Prod.fst).Nodup ∧ ∀ f, f ∈ ram.map Prod.fst ↔ ∃ p ∈ ps, f = lastComponent p := by
  induction ps using List.reverseRecOn with
  | nil => simp
  | append_singleton ps p ih =>
    rw [List.foldl_append]
    show (cpInto _ _ _ |>.map Prod.fst).Nodup ∧ _
    generalize ps.foldl (fun ram p => cpInto ram (lastComponent p) (contents p)) [] = ram at ih
    rcases ih with ⟨hnodup, hmem⟩
    have hkeys : ((cpInto ram (lastComponent p) (contents p)).map Prod.fst) =
        lastComponent p :: (ram.map Prod.fst).filter fun f => f ≠ lastComponent p := by
      rw [cpInto, List.map_cons, List.filter_map]
      rfl
    refine ⟨?_, fun f => ?_⟩
    · rw [hkeys, List.nodup_cons]
      exact ⟨by simp, hnodup.filter _⟩
    · show f ∈ (cpInto ram (lastComponent p) (contents p)).map Prod.fst ↔ _
      rw [hkeys, List.mem_cons, List.mem_filter, hmem]
      by_cases hf : f = lastComponent p
      · simp [hf]
      · simp [hf]

/-- A file that no later one overwrites. -/
theorem lookup_copied {ps : List Text}
    (hinj : ∀ p ∈ ps, ∀ q ∈ ps, lastComponent p = lastComponent q → p = q) {p : Text}
    (hp : p ∈ ps) :
    (ps.foldl (fun ram p => cpInto ram (lastComponent p) (contents p)) []).lookup
      (lastComponent p) = some (contents p) := by
  induction ps using List.reverseRecOn with
  | nil => exact absurd hp List.not_mem_nil
  | append_singleton ps q ih =>
    rw [List.foldl_append]
    show (cpInto _ _ _).lookup _ = _
    rw [lookup_cpInto]
    split_ifs with hpq
    · rw [hinj p hp q (by simp) hpq]
    · refine ih (fun a ha b hb => hinj a (by simp [ha]) b (by simp [hb])) ?_
      rcases List.mem_append.mp hp with h | h
      · exact h
      · exact absurd (congrArg lastComponent (List.mem_singleton.mp h)) hpq

end

/-! ## The directory in RAM -/

/-- Reading the output of `list_modules`. -/
theorem DataDir.readValues_listModulesFor (d : DataDir) (load order : Text) :
    readValues (listModulesFor d.root d.files load order) =
      printedPaths d.root d.files load order := by
  rw [d.listModulesFor_eq, readValues_unlines fun p hp => (d.printedPaths_word load order p hp).1]

/-- Where `copy_to_ram` puts a file. -/
def ramPath (f : Text) : Text := copy2ram ++ '/' :: f

/-- A module that is copied to RAM. -/
def Copied (root : Text) (files : List Module) (load order : Text) (x : Module) : Prop :=
  ∃ s ∈ slots order, x ∈ group root files load order s

theorem ramModule_fileName (x : Module) : ramModule x.fileName = ⟨none, x.name⟩ := by
  simp [ramModule, Module.fileName]

theorem ramFiles_eq_map {α : Type} (ram : List (Text × DirTree α)) :
    (ram.map fun x => ramModule x.1) = (ram.map Prod.fst).map ramModule := by
  rw [List.map_map]
  rfl

section
variable (d : DataDir) (load order : Text)

theorem lastComponent_path {x : Module} (hx : x ∈ d.files) :
    lastComponent (x.path d.root) = x.fileName := by
  rcases Module.path_eq d.root x with ⟨p, hp, -⟩
  rw [hp, lastComponent_append (d.slash_not_mem_fileName hx) (Module.fileName_ne_nil x)]

/-- A call of `ls` takes any other copied module of the same name, too. -/
theorem mem_group_of_fileName {s : Option Text} {x y : Module}
    (hx : x ∈ group d.root d.files load order s) (hy : Copied d.root d.files load order y)
    (h : x.fileName = y.fileName) : y ∈ group d.root d.files load order s := by
  rcases hy with ⟨t, -, hyt⟩
  unfold group at hx hyt ⊢
  simp only [List.mem_filter, Bool.and_eq_true] at hx hyt ⊢
  exact ⟨hyt.1, ⟨h ▸ hx.2.1.1, hyt.2.1.2⟩, hyt.2.2⟩

variable {α : Type} (contents : Text → DirTree α)

/-- In RAM are the files of the modules that were printed. -/
theorem mem_ramFiles {y : Module} :
    y ∈ ramFiles (copyToRam contents (listModulesFor d.root d.files load order)) ↔
      ∃ x, Copied d.root d.files load order x ∧ y = ⟨none, x.name⟩ := by
  rw [ramFiles, copyToRam, d.readValues_listModulesFor]
  have hnames := (copied_names contents (printedPaths d.root d.files load order)).2
  rw [ramFiles_eq_map, List.mem_map]
  refine ⟨?_, ?_⟩
  · rintro ⟨f, hf, rfl⟩
    rcases (hnames f).mp hf with ⟨p, hp, rfl⟩
    rcases (mem_printedPaths_slots d load order).mp hp with ⟨s, hs, x, hx, rfl⟩
    refine ⟨x, ⟨s, hs, hx⟩, ?_⟩
    rw [lastComponent_path d (List.mem_of_mem_filter hx), ramModule_fileName]
  · rintro ⟨x, ⟨s, hs, hx⟩, rfl⟩
    refine ⟨x.fileName, (hnames _).mpr ⟨x.path d.root, ?_, ?_⟩, ramModule_fileName x⟩
    · exact (mem_printedPaths_slots d load order).mpr ⟨s, hs, x, hx, rfl⟩
    · rw [lastComponent_path d (List.mem_of_mem_filter hx)]

/-- A directory has no file twice. -/
theorem nodup_ramFiles :
    (ramFiles (copyToRam contents (listModulesFor d.root d.files load order))).Nodup := by
  rw [ramFiles, copyToRam, d.readValues_listModulesFor, ramFiles_eq_map]
  rcases copied_names contents (printedPaths d.root d.files load order) with ⟨hnodup, hmem⟩
  refine List.Nodup.map_on ?_ hnodup
  -- every name in RAM is the file name of a module
  have hfile : ∀ f, (∃ p ∈ printedPaths d.root d.files load order, f = lastComponent p) →
      ∃ x : Module, f = x.fileName := by
    rintro f ⟨p, hp, rfl⟩
    rcases (mem_printedPaths_slots d load order).mp hp with ⟨s, -, x, hx, rfl⟩
    exact ⟨x, lastComponent_path d (List.mem_of_mem_filter hx)⟩
  intro f hf g hg hfg
  rcases hfile f ((hmem f).mp hf) with ⟨x, rfl⟩
  rcases hfile g ((hmem g).mp hg) with ⟨y, rfl⟩
  rw [ramModule_fileName, ramModule_fileName] at hfg
  rw [Module.fileName, Module.fileName, (Module.mk.inj hfg).2]

/-- The directory in RAM. -/
def ramDir : DataDir where
  root := copy2ram
  files := ramFiles (copyToRam contents (listModulesFor d.root d.files load order))
  nodup := nodup_ramFiles d load order contents
  root_abs := rfl
  root_word := by decide
  dir_word := by
    intro y hy e he
    rcases (mem_ramFiles d load order contents).mp hy with ⟨x, -, rfl⟩
    simp at he
  name_word := by
    intro y hy
    rcases (mem_ramFiles d load order contents).mp hy with ⟨x, ⟨s, -, hx⟩, rfl⟩
    exact d.name_word x (List.mem_of_mem_filter hx)

/-- What is not dropped on the medium is not dropped in RAM. -/
theorem drops_ram {x : Module} (hx : x ∈ d.files)
    (hy : (⟨none, x.name⟩ : Module) ∈ (ramDir d load order contents).files)
    (h : drops load (x.path d.root) = false) :
    drops load (Module.path copy2ram ⟨none, x.name⟩) = false := by
  have hname := modName_fileName hx
  have hname' := modName_fileName hy
  have hopt := noOutput_optional (d.isWord_path hx) (Module.slash_mem_path d.root x)
  have hopt' := noOutput_optional ((ramDir d load order contents).isWord_path hy)
    (Module.slash_mem_path copy2ram _)
  by_contra hdrop
  rw [Bool.not_eq_false, drops, skipped_iff] at hdrop
  rcases hdrop with ⟨hop, hstar, hfound, hask⟩
  -- the word is in the file name, and so in the path on the medium
  have hfile : "optional".toList <:+: x.fileName := by
    have hpath : Module.path copy2ram ⟨none, x.name⟩ = copy2ram ++ '/' :: x.fileName := rfl
    have hinf := hopt'.mp hfound
    rw [show (ramDir d load order contents).root = copy2ram from rfl, hpath] at hinf
    rcases (infix_append_cons_iff (by decide)).mp hinf with h | h
    · exact absurd h (by decide)
    · exact h
  have hmedium : "optional".toList <:+: x.path d.root := by
    rcases Module.path_eq d.root x with ⟨p, hp, -⟩
    rw [hp]
    exact (infix_append_cons_iff (by decide)).mpr (Or.inr hfile)
  have hsame : modName (Module.path copy2ram ⟨none, x.name⟩) = modName (x.path d.root) := by
    rw [hname]
    exact hname'
  rw [hsame] at hask
  rw [drops, skipped_iff.mpr ⟨hop, hstar, hopt.mpr hmedium, hask⟩] at h
  exact absurd h (by decide)

/-- Each call of `ls` sees the same file names on the medium and in RAM. -/
theorem fileName_group_ram {s : Option Text} (hs : s ∈ slots order) {f : Text} :
    f ∈ (group copy2ram (ramDir d load order contents).files load order s).map Module.fileName ↔
      f ∈ (group d.root d.files load order s).map Module.fileName := by
  rw [List.mem_map, List.mem_map]
  refine ⟨?_, ?_⟩
  · rintro ⟨y, hy, rfl⟩
    unfold group at hy
    simp only [List.mem_filter, Bool.and_eq_true] at hy
    rcases (mem_ramFiles d load order contents).mp hy.1 with ⟨x, ⟨t, -, hx⟩, rfl⟩
    refine ⟨x, ?_, rfl⟩
    unfold group at hx ⊢
    simp only [List.mem_filter, Bool.and_eq_true] at hx ⊢
    exact ⟨hx.1, ⟨hy.2.1.1, hx.2.1.2⟩, hx.2.2⟩
  · rintro ⟨x, hx, rfl⟩
    have hmem : (⟨none, x.name⟩ : Module) ∈ (ramDir d load order contents).files :=
      (mem_ramFiles d load order contents).mpr ⟨x, ⟨s, hs, hx⟩, rfl⟩
    refine ⟨⟨none, x.name⟩, ?_, rfl⟩
    unfold group at hx ⊢
    simp only [List.mem_filter, Bool.and_eq_true, Bool.not_eq_true'] at hx ⊢
    exact ⟨hmem, ⟨hx.2.1.1, rfl⟩, drops_ram d load order contents hx.1 hmem hx.2.2⟩

/-- In RAM, the files of a slot have different names. -/
theorem nodup_fileName_group_ram (s : Option Text) :
    ((group copy2ram (ramDir d load order contents).files load order s).map
      Module.fileName).Nodup := by
  refine List.Nodup.map_on ?_ ((nodup_ramFiles d load order contents).filter _)
  intro x hx y hy hxy
  rcases (mem_ramFiles d load order contents).mp (List.mem_of_mem_filter hx) with ⟨x', -, rfl⟩
  rcases (mem_ramFiles d load order contents).mp (List.mem_of_mem_filter hy) with ⟨y', -, rfl⟩
  have hname : x'.name = y'.name := List.append_cancel_right hxy
  rw [hname]

/-- Files of the same name become one file. -/
theorem length_group_ram_le {s : Option Text} (hs : s ∈ slots order) :
    (group copy2ram (ramDir d load order contents).files load order s).length ≤
      (group d.root d.files load order s).length := by
  have hsub := List.subperm_of_subset (nodup_fileName_group_ram d load order contents s)
    fun f hf => (fileName_group_ram d load order contents hs).mp hf
  simpa using hsub.length_le

/-- A slot keeps its length when its files have different names. -/
theorem length_group_ram_eq {s : Option Text} (hs : s ∈ slots order) :
    (group copy2ram (ramDir d load order contents).files load order s).length =
      (group d.root d.files load order s).length ↔
    ((group d.root d.files load order s).map Module.fileName).Nodup := by
  have hnodup := nodup_fileName_group_ram d load order contents s
  have hsub := List.subperm_of_subset hnodup
    fun f hf => (fileName_group_ram d load order contents hs).mp hf
  refine ⟨fun h => ?_, fun h => ?_⟩
  · have hperm := hsub.perm_of_length_le (by simpa using h.ge)
    exact hperm.nodup_iff.mp hnodup
  · have hperm := (List.perm_ext_iff_of_nodup hnodup h).mpr
      fun f => fileName_group_ram d load order contents hs
    simpa using hperm.length_eq

end

/-! ## The stacks -/

/-- What one call of `ls` puts on the stack. -/
def segment {α : Type} (contents : Text → DirTree α) (root : Text) (files : List Module)
    (load order : Text) (s : Option Text) : List (DirTree α) :=
  (byPath root (group root files load order s)).map fun x => contents (x.path root)

section
variable (d : DataDir) (load order : Text) {α : Type} (contents : Text → DirTree α)

/-- The stack is built slot by slot. -/
theorem insertAll_eq (cmdline : Text) : insertAll contents d.root d.files cmdline order =
    ((slots order).flatMap
      (segment contents d.root d.files (loadOption cmdline) order)).reverse := by
  rcases @foldl_insertModule α ⟨fun p => some (contents p), fun _ => true⟩ imagesDir
    (printedPaths d.root d.files (loadOption cmdline) order) ⟨[], []⟩ with ⟨ps, -, heq, hall⟩
  rw [hall fun _ => rfl] at heq
  have htrees := congrArg (List.map Prod.snd) heq
  simp only [List.map_map, List.map_nil, List.append_nil, List.map_reverse] at htrees
  rw [insertAll, listModules, unionInsertModules_eq]
  refine Eq.trans htrees ?_
  rw [printedPaths_slots, List.map_flatMap]
  simp only [List.map_map]
  rfl

section
variable (hinj : ∀ x y, Copied d.root d.files load order x → Copied d.root d.files load order y →
  x.fileName = y.fileName → x = y)
include hinj

omit hinj in
/-- The paths in RAM, in the order of `ls`. -/
theorem lsSort_ramPath (ms : List Module) : lsSort (ms.map fun x => ramPath x.fileName) =
    (byName ms).map fun x => ramPath x.fileName := by
  unfold lsSort byName
  rw [List.map_insertionSort _ fun s t : Text => byteLe s t = true]
  intro x _ y _
  unfold ramPath
  rw [byteLe_append, byteLe, if_pos rfl]

/-- The copy of a module in RAM is what the module was on the medium. -/
theorem ramContents_eq {x : Module} (hx : Copied d.root d.files load order x) :
    ramContents (copyToRam contents (listModulesFor d.root d.files load order))
      (ramPath x.fileName) = contents (x.path d.root) := by
  rcases hx with ⟨s, hs, hxs⟩
  have hmem := List.mem_of_mem_filter hxs
  have hpath : x.path d.root ∈ printedPaths d.root d.files load order :=
    (mem_printedPaths_slots d load order).mpr ⟨s, hs, x, hxs, rfl⟩
  have hdistinct : ∀ p ∈ printedPaths d.root d.files load order,
      ∀ q ∈ printedPaths d.root d.files load order, lastComponent p = lastComponent q → p = q := by
    intro p hp q hq hpq
    rcases (mem_printedPaths_slots d load order).mp hp with ⟨t, ht, y, hy, rfl⟩
    rcases (mem_printedPaths_slots d load order).mp hq with ⟨u, hu, z, hz, rfl⟩
    rw [lastComponent_path d (List.mem_of_mem_filter hy),
      lastComponent_path d (List.mem_of_mem_filter hz)] at hpq
    rw [hinj y z ⟨t, ht, hy⟩ ⟨u, hu, hz⟩ hpq]
  have hlookup := lookup_copied contents hdistinct hpath
  rw [lastComponent_path d hmem] at hlookup
  unfold ramContents ramPath
  rw [lastComponent_append (d.slash_not_mem_fileName hmem) (Module.fileName_ne_nil x), copyToRam,
    d.readValues_listModulesFor, hlookup]
  rfl

/-- In RAM the modules stand in the order of their file names, if these are different. -/
theorem segment_ram {s : Option Text} (hs : s ∈ slots order) :
    segment (ramContents (copyToRam contents (listModulesFor d.root d.files load order))) copy2ram
      (ramDir d load order contents).files load order s =
    (byName (group d.root d.files load order s)).map fun x => contents (x.path d.root) := by
  have hnodup : ((group d.root d.files load order s).map Module.fileName).Nodup := by
    refine List.Nodup.map_on ?_ (d.nodup.filter _)
    exact fun x hx y hy => hinj x y ⟨s, hs, hx⟩ ⟨s, hs, hy⟩
  have hperm := (List.perm_ext_iff_of_nodup (nodup_fileName_group_ram d load order contents s)
    hnodup).mpr fun f => fileName_group_ram d load order contents hs
  have hflat : ∀ y ∈ group copy2ram (ramDir d load order contents).files load order s,
      y.path copy2ram = ramPath y.fileName := by
    intro y hy
    rcases (mem_ramFiles d load order contents).mp (List.mem_of_mem_filter hy) with ⟨x, -, rfl⟩
    rfl
  have hpaths : (byPath copy2ram (group copy2ram (ramDir d load order contents).files load order
      s)).map (Module.path copy2ram) =
        (byName (group d.root d.files load order s)).map fun x => ramPath x.fileName := by
    rw [← lsSort_map_path, List.map_congr_left hflat, ← lsSort_ramPath]
    have hperm' := hperm.map ramPath
    rw [List.map_map, List.map_map] at hperm'
    exact lsSort_eq_of_perm hperm'
  have hmap := congrArg (List.map (ramContents (copyToRam contents
    (listModulesFor d.root d.files load order)))) hpaths
  rw [List.map_map, List.map_map] at hmap
  refine hmap.trans (List.map_congr_left fun x hx => ?_)
  have hxs : x ∈ group d.root d.files load order s := (List.mem_insertionSort _).mp hx
  exact ramContents_eq d load order contents hinj ⟨s, hs, hxs⟩

end

end

/-- Lists joined from shorter lists are shorter. -/
theorem length_flatMap_le {α β : Type} {l : List α} {f g : α → List β}
    (h : ∀ a ∈ l, (f a).length ≤ (g a).length) :
    (l.flatMap f).length ≤ (l.flatMap g).length := by
  induction l with
  | nil => exact Nat.le_refl 0
  | cons a l ih =>
    have ha := h a List.mem_cons_self
    have hl := ih fun b hb => h b (List.mem_cons_of_mem a hb)
    rw [List.flatMap_cons, List.flatMap_cons, List.length_append, List.length_append]
    omega

/-- Lists put together from parts, none of which is longer in the first one. -/
theorem flatMap_eq_iff {α β : Type} {l : List α} {f g : α → List β}
    (h : ∀ a ∈ l, (f a).length ≤ (g a).length) :
    l.flatMap f = l.flatMap g ↔ ∀ a ∈ l, f a = g a := by
  refine ⟨fun heq => ?_, fun heq => List.flatMap_congr heq⟩
  induction l with
  | nil => exact fun a ha => absurd ha List.not_mem_nil
  | cons a l ih =>
    have hle := length_flatMap_le fun b hb => h b (List.mem_cons_of_mem a hb)
    have hlen := congrArg List.length heq
    simp only [List.flatMap_cons, List.length_append] at hlen
    have ha := h a List.mem_cons_self
    rw [List.flatMap_cons, List.flatMap_cons] at heq
    rcases List.append_inj heq (by omega) with ⟨hhead, htail⟩
    intro b hb
    rcases List.mem_cons.mp hb with rfl | hb
    · exact hhead
    · exact ih (fun c hc => h c (List.mem_cons_of_mem a hc)) htail b hb

/-! ## When the system is the same -/

variable {α : Type}

/-- With `toram` or `copy2ram` the union is the one of the plain boot. -/
def SameSystem (m : Medium α) (cmdline order : Text) : Prop :=
  bootToRam m cmdline order = boot m cmdline order

/-- The layout of the medium does not get lost in RAM. -/
structure SameLayout (m : Medium α) (cmdline order : Text) : Prop where
  words : Words m order
  /-- there are no root changes to lose -/
  rootcopy : ∀ name p, name.head? ≠ some '.' → m.rootcopy (name :: p) = none
  /-- no file overwrites another one -/
  names : ∀ x y, Copied m.root m.files (loadOption cmdline) order x →
    Copied m.root m.files (loadOption cmdline) order y → x.fileName = y.fileName → x = y
  /-- the directories make no difference to the order -/
  sorted : ∀ s ∈ slots order,
    (byName (group m.root m.files (loadOption cmdline) order s)).map
        (fun x => m.contents (x.path m.root)) =
      (byPath m.root (group m.root m.files (loadOption cmdline) order s)).map
        fun x => m.contents (x.path m.root)

/-- Nothing is copied when the directory has only hidden files. -/
theorem copyRootchanges_eq_none_iff (rootcopy : DirTree α) :
    copyRootchanges emptyTree = copyRootchanges rootcopy ↔
      ∀ name p, name.head? ≠ some '.' → rootcopy (name :: p) = none := by
  have hstar : ∀ name, pathMatch ['*'] name = true ↔ name.head? ≠ some '.' := by
    intro name
    have hall : globMatch ['*'] name = true :=
      (globMatch_many_ordinary (by simp)).mpr List.nil_suffix
    rw [pathMatch, hall, Bool.true_and]
    simp
  refine ⟨fun h name p hname => ?_, fun h => ?_⟩
  · have hp := congrFun h (name :: p)
    rw [copyRootchanges, copyRootchanges, if_pos ((hstar name).mpr hname),
      if_pos ((hstar name).mpr hname)] at hp
    exact hp.symm
  · funext p
    cases p with
    | nil => rfl
    | cons name p =>
      rw [copyRootchanges, copyRootchanges]
      split_ifs with hname
      · exact (h name p ((hstar name).mp hname)).symm
      · rfl

section
variable (m : Medium α) (h : ∀ x ∈ m.files, IsWord x.name) (cmdline order : Text)

/-- The stacks are the same when each slot gives the same. -/
theorem stack_eq_iff : (bootToRam m cmdline order).stack = (boot m cmdline order).stack ↔
    ∀ s ∈ slots order,
      segment (ramContents (copyToRam m.contents (listModules m.root m.files cmdline order)))
        copy2ram (ramDir (m.dataDir h) (loadOption cmdline) order m.contents).files
        (loadOption cmdline) order s =
      segment m.contents m.root m.files (loadOption cmdline) order s := by
  have hram := insertAll_eq (ramDir (m.dataDir h) (loadOption cmdline) order m.contents) order
    (ramContents (copyToRam m.contents (listModules m.root m.files cmdline order))) cmdline
  have hmedium := insertAll_eq (m.dataDir h) order m.contents cmdline
  refine Iff.trans (Eq.congr hram hmedium) (List.reverse_inj.trans (flatMap_eq_iff ?_))
  intro s hs
  unfold segment
  rw [List.length_map, List.length_map, byPath, byPath, List.length_insertionSort,
    List.length_insertionSort]
  exact length_group_ram_le (m.dataDir h) (loadOption cmdline) order m.contents hs

include h in
/-- As many branches as on the medium: no name is copied twice. -/
theorem names_of_stack_eq
    (heq : (bootToRam m cmdline order).stack = (boot m cmdline order).stack) :
    ∀ x y, Copied m.root m.files (loadOption cmdline) order x →
      Copied m.root m.files (loadOption cmdline) order y → x.fileName = y.fileName → x = y := by
  rintro x y ⟨s, hs, hx⟩ hy hxy
  have hseg := congrArg List.length ((stack_eq_iff m h cmdline order).mp heq s hs)
  unfold segment byPath at hseg
  rw [List.length_map, List.length_map, List.length_insertionSort,
    List.length_insertionSort] at hseg
  have hnodup :=
    (length_group_ram_eq (m.dataDir h) (loadOption cmdline) order m.contents hs).mp hseg
  have hys := mem_group_of_fileName (m.dataDir h) (loadOption cmdline) order hx hy hxy
  exact List.inj_on_of_nodup_map hnodup hx hys hxy

include h in
/-- Where no two files have one name, each slot has to come in the same order. -/
theorem stack_eq_iff_sorted
    (hinj : ∀ x y, Copied m.root m.files (loadOption cmdline) order x →
      Copied m.root m.files (loadOption cmdline) order y → x.fileName = y.fileName → x = y) :
    (bootToRam m cmdline order).stack = (boot m cmdline order).stack ↔ ∀ s ∈ slots order,
      (byName (group m.root m.files (loadOption cmdline) order s)).map
          (fun x => m.contents (x.path m.root)) =
        (byPath m.root (group m.root m.files (loadOption cmdline) order s)).map
          fun x => m.contents (x.path m.root) := by
  rw [stack_eq_iff m h cmdline order]
  refine forall₂_congr fun s hs => ?_
  exact Eq.congr (segment_ram (m.dataDir h) (loadOption cmdline) order m.contents hinj hs) rfl

end

/-- A medium with `base/core.mo` and `modules/core.mo`. -/
def twoCores : Medium Text where
  root := "/mnt/hda1/data".toList
  files := [⟨some "base".toList, "core".toList⟩, ⟨some "modules".toList, "core".toList⟩]
  contents := fun path _ => some path
  rootcopy := emptyTree
  nodup := by decide
  root_abs := rfl
  root_word := by decide
  dirs := by decide
  no_slash := by decide
  rootcopy_mo := by
    intro n
    simp [emptyTree]

end Backpack.Boot
