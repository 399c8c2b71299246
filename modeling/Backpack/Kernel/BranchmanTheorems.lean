import Backpack.Kernel.Branchman
import Mathlib.Algebra.BigOperators.Group.Finset.Basic
import Mathlib.Algebra.BigOperators.Intervals

/-!
# Branches with open files stay

In every state of a mounted union the count of a branch is the number of lower files that are
open in it, whichever generations they are of, and the maps of the generations lead each file to
its own branch.
-/

namespace Kernel

open Shell

/-! ## What is open -/

/-- The lower files that are open in a branch. -/
def opened (files : List UnionFile) (root : HiddenRoot) : Nat :=
  (files.map fun f => (f.hidden.map Prod.snd).count root).sum

/-- The lower files of a generation. -/
def openedAt (files : List UnionFile) (generation : Nat) : Nat :=
  (files.map fun f => if f.generation = generation then f.hidden.length else 0).sum

/-- The map of a generation, where the first one is of `first`. -/
def putmapAt (first : Nat) (putmaps : List (Option Putmap)) (generation : Nat) : Option Putmap :=
  if first ≤ generation then (putmaps[generation - first]?).join else none

/-- The map of a generation. -/
def SbInfo.putmapOf (sb : SbInfo) (generation : Nat) : Option Putmap :=
  putmapAt sb.firstputmap sb.putmaps generation

/-- The number that a branch has by now. -/
def SbInfo.numberOf (sb : SbInfo) (generation index : Nat) : Option Nat :=
  if generation = sb.generation then some index
  else (sb.putmapOf generation).bind fun m => if index ≤ m.bend then m.map[index]? else none

/-- The branch of a number. -/
def SbInfo.rootAt (sb : SbInfo) (index : Nat) : Option HiddenRoot :=
  sb.usiData[index]?.map UsiData.root

structure Inv (sb : SbInfo) (files : List UnionFile) : Prop where
  branches : sb.usiData ≠ []
  overlap : (sb.usiData.map UsiData.root).Pairwise fun d e => isBranchOverlap d e = false
  count : ∀ d ∈ sb.usiData, d.sbcount = opened files d.root
  last : sb.lastputmap + 1 = sb.generation
  start : sb.firstputmap = 0 → sb.putmaps = []
  length : sb.putmaps.length + max 1 sb.firstputmap = sb.generation
  le : ∀ f ∈ files, f.generation ≤ sb.generation
  number : ∀ f ∈ files, ∀ h ∈ f.hidden,
    ∃ j, sb.numberOf f.generation h.1 = some j ∧ sb.rootAt j = some h.2
  counts : ∀ g < sb.generation, putmapCount (sb.putmapOf g) = openedAt files g

theorem putmapAt_of_le {first : Nat} (putmaps : List (Option Putmap)) {g : Nat} (h : first ≤ g) :
    putmapAt first putmaps g = (putmaps[g - first]?).join := if_pos h

theorem putmapAt_of_lt {first : Nat} (putmaps : List (Option Putmap)) {g : Nat} (h : g < first) :
    putmapAt first putmaps g = none := if_neg (Nat.not_le.mpr h)

/-- A map that is kept lies in the window. -/
theorem putmapAt_bounds {first : Nat} {putmaps : List (Option Putmap)} {g : Nat} {m : Putmap}
    (h : putmapAt first putmaps g = some m) : first ≤ g ∧ g - first < putmaps.length := by
  by_cases hfirst : first ≤ g
  · rw [putmapAt_of_le _ hfirst] at h
    refine ⟨hfirst, ?_⟩
    by_contra hlen
    rw [List.getElem?_eq_none (Nat.le_of_not_lt hlen)] at h
    simp at h
  · rw [putmapAt_of_lt _ (Nat.not_le.mp hfirst)] at h
    simp at h

/-- A map put in place is found there. -/
theorem putmapAt_set_self {first : Nat} {putmaps : List (Option Putmap)} {g : Nat}
    (h : first ≤ g) (hg : g - first < putmaps.length) (p : Option Putmap) :
    putmapAt first (putmaps.set (g - first) p) g = p := by
  rw [putmapAt_of_le _ h, List.getElem?_set_self hg]
  rfl

/-- The other maps stay. -/
theorem putmapAt_set_ne {first : Nat} (putmaps : List (Option Putmap)) {g g' : Nat}
    (h : first ≤ g) (hne : g' ≠ g) (p : Option Putmap) :
    putmapAt first (putmaps.set (g - first) p) g' = putmapAt first putmaps g' := by
  by_cases hfirst : first ≤ g'
  · have hne' : g - first ≠ g' - first := by omega
    rw [putmapAt_of_le _ hfirst, putmapAt_of_le _ hfirst, List.getElem?_set_ne hne']
  · have hlt := Nat.not_le.mp hfirst
    rw [putmapAt_of_lt _ hlt, putmapAt_of_lt _ hlt]

/-- A directory is found climbing from itself. -/
theorem climbsTo_self (dent : HiddenRoot) : climbsTo dent dent.fs dent.up = true := by
  cases dent with
  | mk fs up => cases up <;> simp [climbsTo]

theorem isBranchOverlap_self (dent : HiddenRoot) : isBranchOverlap dent dent = true := by
  rw [isBranchOverlap, climbsTo_self, Bool.true_or]

/-- Overlap does not depend on which branch is named first. -/
theorem isBranchOverlap_comm (d e : HiddenRoot) : isBranchOverlap d e = isBranchOverlap e d := by
  rw [isBranchOverlap, isBranchOverlap, Bool.or_comm]

/-- No two branches have the same directory. -/
theorem Inv.nodup {sb : SbInfo} {files : List UnionFile} (h : Inv sb files) :
    (sb.usiData.map UsiData.root).Nodup := by
  refine h.overlap.imp fun {d e} hoverlap heq => ?_
  rw [heq, isBranchOverlap_self] at hoverlap
  simp at hoverlap

theorem rootAt_lt {sb : SbInfo} {j : Nat} {r : HiddenRoot} (h : sb.rootAt j = some r) :
    j < sb.usiData.length := by
  by_contra hge
  rw [SbInfo.rootAt, List.getElem?_eq_none (Nat.le_of_not_lt hge)] at h
  simp at h

/-- A branch has one number. -/
theorem Inv.rootAt_inj {sb : SbInfo} {files : List UnionFile} (h : Inv sb files) {i j : Nat}
    {r : HiddenRoot} (hi : sb.rootAt i = some r) (hj : sb.rootAt j = some r) : i = j := by
  have hilt := rootAt_lt hi
  have hjlt := rootAt_lt hj
  rw [SbInfo.rootAt, List.getElem?_eq_getElem hilt, Option.map_some, Option.some.injEq] at hi
  rw [SbInfo.rootAt, List.getElem?_eq_getElem hjlt, Option.map_some, Option.some.injEq] at hj
  have hinj := List.nodup_iff_injective_get.mp h.nodup
  have hfin := @hinj ⟨i, by simpa using hilt⟩ ⟨j, by simpa using hjlt⟩ (by simp [hi, hj])
  exact Fin.mk.inj hfin

/-- One file more, with what it holds of a branch. -/
theorem opened_cons (f : UnionFile) (files : List UnionFile) (r : HiddenRoot) :
    opened (f :: files) r = (f.hidden.map Prod.snd).count r + opened files r := by
  simp [opened]

/-- One file more, with what it holds of a generation. -/
theorem openedAt_cons (f : UnionFile) (files : List UnionFile) (g : Nat) :
    openedAt (f :: files) g = (if f.generation = g then f.hidden.length else 0) +
      openedAt files g := by
  simp [openedAt]

/-- The order of the open files does not matter. -/
theorem Inv.perm {sb : SbInfo} {files files' : List UnionFile} (h : Inv sb files)
    (hp : files.Perm files') : Inv sb files' where
  branches := h.branches
  overlap := h.overlap
  count d hd := by
    rw [h.count d hd, opened, opened, (hp.map _).sum_eq]
  last := h.last
  start := h.start
  length := h.length
  le f hf := h.le f (hp.mem_iff.mpr hf)
  number f hf := h.number f (hp.mem_iff.mpr hf)
  counts g hg := by
    rw [h.counts g hg, openedAt, openedAt, (hp.map _).sum_eq]

/-- A file without lower files counts for nothing. -/
theorem Inv.drop {sb : SbInfo} {g : Nat} {files : List UnionFile} (h : Inv sb (⟨g, []⟩ :: files)) :
    Inv sb files where
  branches := h.branches
  overlap := h.overlap
  count d hd := by
    rw [h.count d hd, opened_cons]
    simp
  last := h.last
  start := h.start
  length := h.length
  le f hf := h.le f (List.mem_cons_of_mem _ hf)
  number f hf := h.number f (List.mem_cons_of_mem _ hf)
  counts g' hg := by
    rw [h.counts g' hg, openedAt_cons]
    simp

/-- A file that holds nothing may be added. -/
theorem Inv.fresh {sb : SbInfo} {files : List UnionFile} (h : Inv sb files) :
    Inv sb (⟨sb.generation, []⟩ :: files) where
  branches := h.branches
  overlap := h.overlap
  count d hd := by
    rw [h.count d hd, opened_cons]
    simp
  last := h.last
  start := h.start
  length := h.length
  le f hf := by
    rcases List.mem_cons.mp hf with hf | hf
    · rw [hf]
    · exact h.le f hf
  number f hf x hx := by
    rcases List.mem_cons.mp hf with hf | hf
    · rw [hf] at hx
      exact absurd hx List.not_mem_nil
    · exact h.number f hf x hx
  counts g hg := by
    rw [h.counts g hg, openedAt_cons]
    simp

/-- A generation in which a lower file is open counts one. -/
theorem openedAt_pos {files : List UnionFile} {f : UnionFile} {x : Nat × HiddenRoot}
    (hf : f ∈ files) (hx : x ∈ f.hidden) : 0 < openedAt files f.generation := by
  have hpos : 0 < f.hidden.length := List.length_pos_of_mem hx
  refine Nat.lt_of_lt_of_le hpos (List.single_le_sum (by simp) _ ?_)
  exact List.mem_map.mpr ⟨f, hf, if_pos rfl⟩

/-! ## Counting -/

theorem map_root_addCount (sb : SbInfo) (i : Nat) (n : Int) :
    (sb.addCount i n).usiData.map UsiData.root = sb.usiData.map UsiData.root := by
  apply List.ext_getElem?
  intro k
  simp only [SbInfo.addCount, List.getElem?_map, List.getElem?_modify]
  cases sb.usiData[k]? with
  | none => rfl
  | some d => split_ifs <;> rfl

/-- Counting does not move a branch. -/
theorem rootAt_addCount (sb : SbInfo) (i : Nat) (n : Int) (j : Nat) :
    (sb.addCount i n).rootAt j = sb.rootAt j := by
  have h := congrArg (·[j]?) (map_root_addCount sb i n)
  simp only [List.getElem?_map] at h
  exact h

theorem numberOf_addCount (sb : SbInfo) (i : Nat) (n : Int) (g j : Nat) :
    (sb.addCount i n).numberOf g j = sb.numberOf g j := rfl

theorem putmapOf_addCount (sb : SbInfo) (i : Nat) (n : Int) (g : Nat) :
    (sb.addCount i n).putmapOf g = sb.putmapOf g := rfl

/-- The count of the one branch follows what is open in it. -/
theorem Inv.count_addCount {sb : SbInfo} {files files' : List UnionFile} (h : Inv sb files)
    {i : Nat} {r : HiddenRoot} (hr : sb.rootAt i = some r) (n : Int)
    (ho : ∀ r', (opened files' r' : Int) = opened files r' + if r' = r then n else 0) :
    ∀ d ∈ (sb.addCount i n).usiData, d.sbcount = opened files' d.root := by
  intro d hd
  have ⟨k, hk⟩ := List.mem_iff_getElem?.mp hd
  rw [SbInfo.addCount, List.getElem?_modify] at hk
  cases hd0 : sb.usiData[k]? with
  | none => simp [hd0] at hk
  | some d0 =>
    have hroot : sb.rootAt k = some d0.root := by rw [SbInfo.rootAt, hd0, Option.map_some]
    have hcount := h.count d0 (List.mem_of_getElem? hd0)
    by_cases hik : i = k
    · subst hik
      rw [hr, Option.some.injEq] at hroot
      simp only [hd0, if_true] at hk
      rw [← Option.some.inj hk, ho]
      show d0.sbcount + n = opened files d0.root + if d0.root = r then n else 0
      rw [hcount, if_pos hroot.symm]
    · have hne : d0.root ≠ r := fun heq => hik (h.rootAt_inj hr (heq ▸ hroot))
      simp only [hd0, hik, if_false] at hk
      rw [← Option.some.inj hk, ho, hcount, if_neg hne, add_zero]

/-- One lower file more is open. -/
theorem Inv.branchget {sb : SbInfo} {acc : List (Nat × HiddenRoot)} {files : List UnionFile}
    (h : Inv sb (⟨sb.generation, acc⟩ :: files)) {i : Nat} {r : HiddenRoot}
    (hr : sb.rootAt i = some r) :
    Inv (sb.addCount i 1) (⟨sb.generation, acc ++ [(i, r)]⟩ :: files) where
  branches := by
    intro hnil
    have hroots := congrArg (List.map UsiData.root) hnil
    rw [map_root_addCount] at hroots
    exact h.branches (by simpa using hroots)
  overlap := by
    rw [map_root_addCount]
    exact h.overlap
  count := h.count_addCount hr 1 fun r' => by
    rw [opened_cons, opened_cons]
    by_cases heq : r' = r
    · subst heq
      simp only [List.map_append, List.count_append, List.map_cons, List.map_nil,
        List.count_singleton_self, if_true]
      omega
    · have hne : r ≠ r' := Ne.symm heq
      simp [List.count_append, heq, hne]
  last := h.last
  start := h.start
  length := h.length
  le f hf := by
    rcases List.mem_cons.mp hf with hf | hf
    · rw [hf]
      exact le_refl _
    · exact h.le f (List.mem_cons_of_mem _ hf)
  number f hf x hx := by
    simp only [numberOf_addCount, rootAt_addCount]
    rcases List.mem_cons.mp hf with hf | hf
    · subst hf
      rcases List.mem_append.mp hx with hx | hx
      · exact h.number ⟨sb.generation, acc⟩ List.mem_cons_self x hx
      · rw [List.mem_singleton.mp hx]
        exact ⟨i, if_pos rfl, hr⟩
    · exact h.number f (List.mem_cons_of_mem _ hf) x hx
  counts g hg := by
    have hcounts := h.counts g hg
    have hne : sb.generation ≠ g := Nat.ne_of_gt hg
    rw [openedAt_cons, if_neg hne] at hcounts
    rw [putmapOf_addCount, hcounts, openedAt_cons, if_neg hne]

/-- Opening a file keeps the invariant. -/
theorem Inv.openFile {sb : SbInfo} {files : List UnionFile} (h : Inv sb files)
    (dentries : List Nat) :
    Inv (unionfsOpen sb dentries).1 ((unionfsOpen sb dentries).2 :: files) := by
  -- lower file by lower file
  have key : ∀ (rest : List (Nat × HiddenRoot)) (sb' : SbInfo) (acc : List (Nat × HiddenRoot)),
      Inv sb' (⟨sb'.generation, acc⟩ :: files) → (∀ x ∈ rest, sb'.rootAt x.1 = some x.2) →
      Inv (rest.foldl (fun sb x => sb.addCount x.1 1) sb')
        (⟨sb'.generation, acc ++ rest⟩ :: files) := by
    intro rest
    induction rest with
    | nil =>
      intro sb' acc hinv _
      rw [List.append_nil]
      exact hinv
    | cons x rest ih =>
      intro sb' acc hinv hroots
      have hdone := ih (sb'.addCount x.1 1) (acc ++ [x])
        (hinv.branchget (hroots x List.mem_cons_self)) fun y hy => by
          rw [rootAt_addCount]
          exact hroots y (List.mem_cons_of_mem x hy)
      rw [List.append_assoc] at hdone
      exact hdone
  refine key _ sb [] h.fresh fun x hx => ?_
  have ⟨i, _, hmap⟩ := List.mem_filterMap.mp hx
  have ⟨d, hd, hx'⟩ := Option.map_eq_some_iff.mp hmap
  rw [← hx', SbInfo.rootAt, hd, Option.map_some]

/-! ## Releasing -/

/-- A map after one file of its generation was put. -/
theorem branchputGen_spec {sb : SbInfo} {files : List UnionFile} (h : Inv sb files) {g i j : Nat}
    (hg : g ≤ sb.generation) (hn : sb.numberOf g i = some j) (hj : j < sb.usiData.length) :
    ∃ sb', branchputGen g sb i = some sb' ∧ sb'.usiData = (sb.addCount j (-1)).usiData ∧
      sb'.generation = sb.generation ∧ sb'.firstputmap = sb.firstputmap ∧
      sb'.lastputmap = sb.lastputmap ∧
      sb'.putmaps.length = sb.putmaps.length ∧
      (∀ g', g' ≠ g → sb'.putmapOf g' = sb.putmapOf g') ∧
      (g < sb.generation → ∃ m, sb.putmapOf g = some m ∧ sb'.putmapOf g =
        if m.count - 1 = 0 then none else some { m with count := m.count - 1 }) := by
  by_cases hcur : g = sb.generation
  · rw [SbInfo.numberOf, if_pos hcur, Option.some.injEq] at hn
    subst hn
    refine ⟨sb.addCount i (-1), ?_, rfl, rfl, rfl, rfl, rfl, fun g' _ => rfl, fun hlt => by omega⟩
    rw [branchputGen, if_pos hcur, if_pos hj]
  · rw [SbInfo.numberOf, if_neg hcur] at hn
    have ⟨m, hm, hmi⟩ := Option.bind_eq_some_iff.mp hn
    have ⟨hle, hlt⟩ := putmapAt_bounds hm
    have hm' := hm
    rw [SbInfo.putmapOf, putmapAt_of_le _ hle] at hm'
    have hlast := h.last
    have hbend : ¬ m.bend < i := by
      intro hlt'
      rw [if_neg (by omega)] at hmi
      simp at hmi
    rw [if_pos (by omega)] at hmi
    refine ⟨{ sb.addCount j (-1) with
      putmaps := sb.putmaps.set (g - sb.firstputmap)
        (if m.count - 1 = 0 then none else some { m with count := m.count - 1 }) },
      ?_, rfl, rfl, rfl, rfl, by simp, fun g' hg' => ?_, fun _ => ⟨m, hm, ?_⟩⟩
    · rw [branchputGen, if_neg hcur, if_neg (by omega), hm']
      simp only [if_neg hbend, hmi, if_pos hj]
      rfl
    · exact putmapAt_set_ne sb.putmaps hle hg' _
    · exact putmapAt_set_self hle hlt _

/-- One lower file less is open. -/
theorem Inv.branchput {sb : SbInfo} {g i : Nat} {r : HiddenRoot} {hidden : List (Nat × HiddenRoot)}
    {files : List UnionFile} (h : Inv sb (⟨g, (i, r) :: hidden⟩ :: files)) :
    ∃ sb', branchputGen g sb i = some sb' ∧ Inv sb' (⟨g, hidden⟩ :: files) := by
  have hg : g ≤ sb.generation := h.le _ List.mem_cons_self
  have ⟨j, hj, hr⟩ := h.number _ List.mem_cons_self (i, r) List.mem_cons_self
  have ⟨sb', hput, husi, hgen, hfirst, hlast, hlength, hother, hown⟩ :=
    branchputGen_spec h hg hj (rootAt_lt hr)
  have hroots : sb'.usiData.map UsiData.root = sb.usiData.map UsiData.root := by
    rw [husi, map_root_addCount]
  have hrootAt : ∀ k, sb'.rootAt k = sb.rootAt k := fun k => by
    have hroot := rootAt_addCount sb j (-1) k
    rw [SbInfo.rootAt, ← husi] at hroot
    exact hroot
  -- the count of the own generation, in both states
  have hcounts : ∀ g' < sb.generation, putmapCount (sb'.putmapOf g') =
      openedAt (⟨g, hidden⟩ :: files) g' := by
    intro g' hg'
    have hcount := h.counts g' hg'
    rw [openedAt_cons] at hcount ⊢
    by_cases hgg : g' = g
    · subst hgg
      have ⟨m, hm, hm'⟩ := hown hg'
      rw [hm, if_pos rfl, List.length_cons] at hcount
      have hm'' : m.count = hidden.length + 1 + openedAt files g' := by exact_mod_cast hcount
      rw [hm', if_pos rfl]
      by_cases hlast' : m.count - 1 = 0
      · rw [if_pos hlast']
        show (0 : Int) = _
        push_cast
        omega
      · rw [if_neg hlast']
        show m.count - 1 = _
        push_cast
        omega
    · rw [hother g' hgg, hcount, if_neg (Ne.symm hgg), if_neg (Ne.symm hgg)]
  refine ⟨sb', hput, ?_, ?_, ?_, ?_, ?_, ?_, ?_, ?_, ?_⟩
  · intro hnil
    rw [hnil] at hroots
    exact h.branches (List.map_eq_nil_iff.mp hroots.symm)
  · rw [hroots]
    exact h.overlap
  · rw [husi]
    refine h.count_addCount hr (-1) fun r' => ?_
    rw [opened_cons, opened_cons]
    by_cases heq : r' = r
    · subst heq
      simp only [List.map_cons, List.count_cons_self, if_true]
      push_cast
      omega
    · have hne : r ≠ r' := Ne.symm heq
      simp [heq, hne]
  · rw [hlast, hgen]
    exact h.last
  · intro hzero
    rw [hfirst] at hzero
    rw [h.start hzero] at hlength
    exact List.length_eq_zero_iff.mp hlength
  · rw [hlength, hfirst, hgen]
    exact h.length
  · intro f hf
    rw [hgen]
    rcases List.mem_cons.mp hf with hf | hf
    · rw [hf]
      exact hg
    · exact h.le f (List.mem_cons_of_mem _ hf)
  · intro f hf x hx
    have ⟨k, hk, hkr⟩ : ∃ k, sb.numberOf f.generation x.1 = some k ∧ sb.rootAt k = some x.2 := by
      rcases List.mem_cons.mp hf with hf | hf
      · rw [hf] at hx ⊢
        exact h.number ⟨g, (i, r) :: hidden⟩ List.mem_cons_self x (List.mem_cons_of_mem _ hx)
      · exact h.number f (List.mem_cons_of_mem _ hf) x hx
    refine ⟨k, ?_, by rw [hrootAt, hkr]⟩
    by_cases hcur : f.generation = sb.generation
    · rw [SbInfo.numberOf, if_pos hcur] at hk
      rw [SbInfo.numberOf, hgen, if_pos hcur, hk]
    rw [SbInfo.numberOf, if_neg hcur] at hk
    rw [SbInfo.numberOf, hgen, if_neg hcur]
    by_cases hgg : f.generation = g
    · -- the map is still there, since it counts this file
      have hlt : g < sb.generation := by omega
      have ⟨m, hm, hm'⟩ := hown hlt
      have hcount := hcounts g hlt
      have hpos := openedAt_pos hf hx
      rw [hgg] at hpos hk ⊢
      rw [hm'] at hcount ⊢
      by_cases hlast' : m.count - 1 = 0
      · rw [if_pos hlast'] at hcount
        have hzero : (0 : Int) = openedAt (⟨g, hidden⟩ :: files) g := hcount
        omega
      · rw [if_neg hlast']
        rw [hm] at hk
        exact hk
    · rw [hother _ hgg, hk]
  · intro g' hg'
    rw [hgen] at hg'
    exact hcounts g' hg'

/-- A file that is released leaves what is open in the others. -/
theorem Inv.release {g : Nat} {files : List UnionFile} :
    ∀ {hidden : List (Nat × HiddenRoot)} {sb : SbInfo}, Inv sb (⟨g, hidden⟩ :: files) →
      ∃ sb', unionfsFileRelease sb ⟨g, hidden⟩ = some sb' ∧ Inv sb' files := by
  intro hidden
  induction hidden with
  | nil =>
    intro sb h
    exact ⟨sb, rfl, h.drop⟩
  | cons x hidden ih =>
    intro sb h
    have ⟨sb₁, hput, hinv⟩ := h.branchput
    have ⟨sb₂, hputs, hinv'⟩ := ih hinv
    refine ⟨sb₂, ?_, hinv'⟩
    rw [unionfsFileRelease, List.foldlM_cons, hput]
    exact hputs

/-! ## A new generation -/

/-- The lower files of all generations, and in all branches. -/
def openedAll (files : List UnionFile) : Nat := (files.map fun f => f.hidden.length).sum

/-- What is held at all generations is what is held. -/
theorem sum_openedAt {n : Nat} :
    ∀ {files : List UnionFile}, (∀ f ∈ files, f.generation < n) →
      ∑ g ∈ Finset.range n, openedAt files g = openedAll files := by
  intro files
  induction files with
  | nil => simp [openedAt, openedAll]
  | cons f files ih =>
    intro h
    have hmem : f.generation ∈ Finset.range n := Finset.mem_range.mpr (h f List.mem_cons_self)
    simp only [openedAt_cons, Finset.sum_add_distrib, Finset.sum_ite_eq, if_pos hmem]
    rw [ih fun f' hf' => h f' (List.mem_cons_of_mem f hf')]
    simp [openedAll]

/-- What is held of all branches is what is held. -/
theorem sum_opened {roots : List HiddenRoot} (hnodup : roots.Nodup) :
    ∀ {files : List UnionFile}, (∀ f ∈ files, ∀ x ∈ f.hidden, x.2 ∈ roots) →
      (roots.map (opened files)).sum = openedAll files := by
  intro files
  induction files with
  | nil =>
    intro _
    show (roots.map fun _ => 0).sum = 0
    simp
  | cons f files ih =>
    intro h
    have hroots : ∀ r ∈ (f.hidden.map Prod.snd : Multiset HiddenRoot), r ∈ roots.toFinset := by
      intro r hr
      have ⟨x, hx, hxr⟩ := List.mem_map.mp (Multiset.mem_coe.mp hr)
      rw [List.mem_toFinset, ← hxr]
      exact h f List.mem_cons_self x hx
    have hcard := Multiset.sum_count_eq_card hroots
    rw [← List.sum_toFinset _ hnodup]
    simp only [opened_cons, Finset.sum_add_distrib]
    rw [List.sum_toFinset (opened files) hnodup,
      ih fun f' hf' => h f' (List.mem_cons_of_mem f hf')]
    simp only [Multiset.coe_count, Multiset.coe_card, List.length_map] at hcard
    rw [hcard]
    simp [openedAll]

/-- The maps that went away at the front are dropped, which changes no number. -/
theorem putmapAt_dropWhile :
    ∀ {putmaps : List (Option Putmap)} {first g : Nat},
      putmapAt (first + (putmaps.length - (putmaps.dropWhile Option.isNone).length))
        (putmaps.dropWhile Option.isNone) g = putmapAt first putmaps g := by
  intro putmaps
  induction putmaps with
  | nil =>
    intro first g
    rfl
  | cons p putmaps ih =>
    intro first g
    cases p with
    | some m => simp
    | none =>
      have hshorter := (List.dropWhile_sublist (l := putmaps) (p := Option.isNone)).length_le
      have hskip : first + ((none :: putmaps).length - (putmaps.dropWhile Option.isNone).length) =
          first + 1 + (putmaps.length - (putmaps.dropWhile Option.isNone).length) := by
        rw [List.length_cons]
        omega
      rw [List.dropWhile_cons_of_pos rfl, hskip, ih]
      -- a generation without a map, or beyond it
      by_cases hnext : first + 1 ≤ g
      · have hindex : g - first = g - (first + 1) + 1 := by omega
        rw [putmapAt_of_le _ hnext, putmapAt_of_le _ (by omega), hindex, List.getElem?_cons_succ]
      · rw [putmapAt_of_lt _ (by omega)]
        by_cases hfirst : first ≤ g
        · have hindex : g - first = 0 := by omega
          rw [putmapAt_of_le _ hfirst, hindex]
          rfl
        · rw [putmapAt_of_lt _ (by omega)]

/-- A new map leaves the old ones. -/
theorem putmapAt_append {first g : Nat} {putmaps : List (Option Putmap)}
    (h : g < putmaps.length + first) (p : Option Putmap) :
    putmapAt first (putmaps ++ [p]) g = putmapAt first putmaps g := by
  by_cases hfirst : first ≤ g
  · rw [putmapAt_of_le _ hfirst, putmapAt_of_le _ hfirst, List.getElem?_append_left (by omega)]
  · rw [putmapAt_of_lt _ (by omega), putmapAt_of_lt _ (by omega)]

/-- The new map is that of the new generation. -/
theorem putmapAt_append_self {first g : Nat} {putmaps : List (Option Putmap)}
    (h : putmaps.length + first = g) (p : Option Putmap) :
    putmapAt first (putmaps ++ [p]) g = p := by
  have hindex : g - first = putmaps.length := by omega
  rw [putmapAt_of_le _ (by omega), hindex, List.getElem?_concat_length]
  rfl

/-- What is done to all maps is done to each. -/
theorem putmapAt_map {first g : Nat} {putmaps : List (Option Putmap)} (f : Putmap → Putmap) :
    putmapAt first (putmaps.map (Option.map f)) g = (putmapAt first putmaps g).map f := by
  by_cases hfirst : first ≤ g
  · rw [putmapAt_of_le _ hfirst, putmapAt_of_le _ hfirst, List.getElem?_map]
    cases putmaps[g - first]? with
    | none => rfl
    | some p => cases p <;> rfl
  · rw [putmapAt_of_lt _ (by omega), putmapAt_of_lt _ (by omega)]
    rfl

/-- The map of the generation that ends counts the files of that generation. -/
theorem Inv.withNewmap_eq {sb : SbInfo} {files : List UnionFile} (h : Inv sb files) :
    ∃ newlist first, 0 < first ∧ newlist.length + first = sb.generation ∧
      (∀ g < sb.generation, putmapAt first newlist g = sb.putmapOf g) ∧
      sb.withNewmap = { sb with
        firstputmap := first
        lastputmap := sb.generation
        putmaps := newlist ++ [some ⟨openedAt files sb.generation, sb.usiData.length - 1,
          List.range sb.usiData.length⟩] } := by
  have hlength := h.length
  have hlast := h.last
  -- the front of the list
  have ⟨newlist, first, hnew, hfirst, hpos, hlen, hmaps⟩ : ∃ newlist first,
      newlist = sb.newlist ∧
      first = (if sb.firstputmap = 0 then 1
        else sb.firstputmap + (sb.putmaps.length - newlist.length)) ∧ 0 < first ∧
      newlist.length + first = sb.generation ∧
      ∀ g < sb.generation, putmapAt first newlist g = sb.putmapOf g := by
    by_cases hzero : sb.firstputmap = 0
    · have hnil := h.start hzero
      rw [hnil, hzero, List.length_nil] at hlength
      refine ⟨[], 1, by rw [SbInfo.newlist, if_pos hzero], by rw [if_pos hzero], Nat.one_pos,
        by simpa using hlength, fun g _ => ?_⟩
      rw [SbInfo.putmapOf, hnil]
      simp [putmapAt]
    · have hshorter := (List.dropWhile_sublist (l := sb.putmaps) (p := Option.isNone)).length_le
      refine ⟨sb.putmaps.dropWhile Option.isNone, _, by rw [SbInfo.newlist, if_neg hzero],
        by rw [if_neg hzero],
        by omega, ?_, fun g _ => putmapAt_dropWhile⟩
      rw [Nat.max_eq_right (by omega)] at hlength
      omega
  have hlast' : (if sb.firstputmap = 0 then 1 else sb.lastputmap + 1) = sb.generation := by
    by_cases hzero : sb.firstputmap = 0
    · rw [h.start hzero, hzero, List.length_nil] at hlength
      rw [if_pos hzero]
      simpa using hlength
    · rw [if_neg hzero, hlast]
  refine ⟨newlist, first, hpos, hlen, hmaps, ?_⟩
  -- what the branches count, less what the older maps count
  have hsum : (sb.usiData.map UsiData.sbcount).sum -
      ((List.range (sb.generation - first)).map fun k => putmapCount (newlist[k]?.join)).sum =
      openedAt files sb.generation := by
    have hall : (sb.usiData.map UsiData.sbcount).sum = openedAll files := by
      have hgens : ∀ f ∈ files, ∀ x ∈ f.hidden, x.2 ∈ sb.usiData.map UsiData.root := by
        intro f hf x hx
        have ⟨j, _, hj⟩ := h.number f hf x hx
        have ⟨d, hd, hdr⟩ := Option.map_eq_some_iff.mp hj
        exact List.mem_map.mpr ⟨d, List.mem_of_getElem? hd, hdr⟩
      rw [← sum_opened h.nodup hgens, List.map_map, List.map_congr_left h.count, Nat.cast_list_sum,
        List.map_map]
      rfl
    have hgens : ∑ g ∈ Finset.range (sb.generation + 1), openedAt files g = openedAll files :=
      sum_openedAt fun f hf => Nat.lt_succ_of_le (h.le f hf)
    have holder : ∑ g ∈ Finset.range sb.generation, (openedAt files g : Int) =
        ((List.range (sb.generation - first)).map fun k =>
          putmapCount (newlist[k]?.join)).sum := by
      have hsplit : sb.generation = first + (sb.generation - first) := by omega
      have hcongr : ∀ g ∈ Finset.range sb.generation, (openedAt files g : Int) =
          putmapCount (putmapAt first newlist g) := fun g hg => by
        have hlt := Finset.mem_range.mp hg
        rw [← h.counts g hlt, hmaps g hlt]
      rw [Finset.sum_congr rfl hcongr]
      conv_lhs => rw [hsplit]
      rw [Finset.sum_range_add]
      have hbefore : ∑ g ∈ Finset.range first, putmapCount (putmapAt first newlist g) = 0 :=
        Finset.sum_eq_zero fun g hg => by
          rw [putmapAt_of_lt _ (Finset.mem_range.mp hg)]
          rfl
      rw [hbefore, zero_add]
      have hindex : ∀ k, putmapAt first newlist (first + k) = newlist[k]?.join := fun k => by
        rw [putmapAt_of_le _ (Nat.le_add_right _ _), Nat.add_sub_cancel_left]
      simp only [hindex]
      rfl
    rw [Finset.sum_range_succ] at hgens
    rw [hall, ← holder, ← hgens]
    push_cast
    omega
  rw [SbInfo.withNewmap]
  simp only [← hnew, ← hfirst, hlast', hsum]

/-! ## Branches by other numbers -/

/-- A new generation, in which `σ` gives the branches their numbers. -/
theorem Inv.renumber {sb sb' : SbInfo} {files : List UnionFile} (h : Inv sb files) (σ : Nat → Nat)
    (hgen : sb'.generation = sb.generation + 1) (hlast : sb'.lastputmap = sb.generation)
    (hfirst : 0 < sb'.firstputmap)
    (hlength : sb'.putmaps.length + sb'.firstputmap = sb.generation + 1)
    (hbranches : sb'.usiData ≠ [])
    (hoverlap : (sb'.usiData.map UsiData.root).Pairwise fun d e => isBranchOverlap d e = false)
    (hcount : ∀ d ∈ sb'.usiData, d.sbcount = opened files d.root)
    (hroot : ∀ i r, sb.rootAt i = some r → 0 < opened files r → sb'.rootAt (σ i) = some r)
    (hmap : ∀ g ≤ sb.generation, ∀ i j, sb.numberOf g i = some j → j < sb.usiData.length →
      sb'.numberOf g i = some (σ j))
    (hcounts : ∀ g ≤ sb.generation, putmapCount (sb'.putmapOf g) = openedAt files g) :
    Inv sb' files where
  branches := hbranches
  overlap := hoverlap
  count := hcount
  last := by rw [hlast, hgen]
  start hzero := by omega
  length := by
    rw [Nat.max_eq_right (by omega), hlength, hgen]
  le f hf := by
    have hle := h.le f hf
    omega
  number f hf x hx := by
    have ⟨j, hj, hr⟩ := h.number f hf x hx
    refine ⟨σ j, hmap _ (h.le f hf) _ _ hj (rootAt_lt hr), hroot j x.2 hr ?_⟩
    refine Nat.lt_of_lt_of_le (List.count_pos_iff.mpr (List.mem_map_of_mem hx))
      (List.single_le_sum (by simp) _ (List.mem_map.mpr ⟨f, hf, rfl⟩))
  counts g hg := hcounts g (by omega)

/-- A new generation, as `unionfs_ioctl_incgen` and `unionfs_ioctl_rdwrbranch` begin it. -/
theorem Inv.incgen {sb : SbInfo} {files : List UnionFile} (h : Inv sb files) :
    Inv { sb.withNewmap with generation := sb.withNewmap.generation + 1 } files := by
  have ⟨newlist, first, hpos, hlen, hmaps, hnew⟩ := h.withNewmap_eq
  have hself : putmapAt first (newlist ++ [some ⟨openedAt files sb.generation,
      sb.usiData.length - 1, List.range sb.usiData.length⟩]) sb.generation = _ :=
    putmapAt_append_self hlen _
  have hlow : ∀ g < sb.generation, putmapAt first (newlist ++ [some ⟨openedAt files sb.generation,
      sb.usiData.length - 1, List.range sb.usiData.length⟩]) g = sb.putmapOf g := fun g hg => by
    rw [putmapAt_append (by omega), hmaps g hg]
  rw [hnew]
  refine h.renumber id rfl rfl hpos ?_ h.branches h.overlap h.count (fun i r hr _ => hr) ?_ ?_
  · simp only [List.length_append, List.length_singleton]
    omega
  · intro g hg i j hj hlt
    rw [SbInfo.numberOf, if_neg (by simp only; omega), SbInfo.putmapOf]
    by_cases hcur : g = sb.generation
    · subst hcur
      rw [SbInfo.numberOf, if_pos rfl, Option.some.injEq] at hj
      rw [hself, Option.bind_some, if_pos (by simp only; omega), List.getElem?_range (by omega), hj]
      rfl
    · rw [SbInfo.numberOf, if_neg hcur] at hj
      rw [hlow g (by omega), hj]
      rfl
  · intro g hg
    rw [SbInfo.putmapOf]
    by_cases hcur : g = sb.generation
    · subst hcur
      rw [hself]
      rfl
    · rw [hlow g (by omega)]
      exact h.counts g (by omega)

/-- The newest map changes alone. -/
theorem onNewest_eq {sb : SbInfo} {newlist : List (Option Putmap)} {m : Putmap}
    (h : sb.putmaps = newlist ++ [some m]) (hl : sb.lastputmap - sb.firstputmap = newlist.length)
    (f : Putmap → Option Putmap) :
    sb.onNewest f = { sb with putmaps := newlist ++ [f m] } := by
  rw [SbInfo.onNewest, h, hl, List.modify_eq_take_cons_drop (by simp)]
  simp

/-- The older maps go on through the newest one. -/
theorem fixputmaps_eq {sb : SbInfo} {newlist : List (Option Putmap)} {m : Putmap}
    (h : sb.putmaps = newlist ++ [some m]) (hl : sb.lastputmap - sb.firstputmap = newlist.length)
    (beyond : Nat → Nat) :
    fixputmaps beyond sb = { sb with
      putmaps := newlist.map (Option.map fun old =>
        { old with map := old.map.map fun i => (m.map[i]?).getD (beyond i) }) ++ [some m] } := by
  rw [fixputmaps, h, hl, List.getElem?_concat_length]
  simp only [Option.join_some]
  congr 1
  rw [List.mapIdx_append]
  congr 1
  · apply List.ext_getElem (by simp)
    intro k hk hk'
    rw [List.length_mapIdx] at hk
    simp [hk]
  · simp

/-- Branches that come or go, with the maps that follow them. -/
theorem Inv.change {sb : SbInfo} {files : List UnionFile} (h : Inv sb files) (beyond : Nat → Nat)
    (σ : Nat → Nat) (data : List UsiData) (hbranches : data ≠ [])
    (hoverlap : (data.map UsiData.root).Pairwise fun d e => isBranchOverlap d e = false)
    (hcount : ∀ d ∈ data, d.sbcount = opened files d.root)
    (hroot : ∀ i r, sb.rootAt i = some r → 0 < opened files r →
      data[σ i]?.map UsiData.root = some r) :
    ∃ newlist first,
      fixputmaps beyond ({ sb.withNewmap with
        generation := sb.generation + 1
        usiData := data }.onNewest fun m => some { m with map := m.map.map σ }) =
      { usiData := data
        generation := sb.generation + 1
        firstputmap := first
        lastputmap := sb.generation
        putmaps := newlist ++ [some ⟨openedAt files sb.generation, sb.usiData.length - 1,
          (List.range sb.usiData.length).map σ⟩] } ∧
      newlist.length + first = sb.generation ∧
      Inv ⟨data, sb.generation + 1, first, sb.generation,
        newlist ++ [some ⟨openedAt files sb.generation, sb.usiData.length - 1,
          (List.range sb.usiData.length).map σ⟩]⟩ files := by
  have ⟨newlist, first, hpos, hlen, hmaps, hnew⟩ := h.withNewmap_eq
  have hl : sb.generation - first = newlist.length := by omega
  -- where an older map leads
  let go : Putmap → Putmap := fun old => { old with
    map := old.map.map fun i => (((List.range sb.usiData.length).map σ)[i]?).getD (beyond i) }
  refine ⟨newlist.map (Option.map go), first, ?_, by simpa using hlen, ?_⟩
  · rw [hnew, onNewest_eq rfl hl, fixputmaps_eq rfl hl]
  have hself : putmapAt first (newlist.map (Option.map go) ++ [some ⟨openedAt files sb.generation,
      sb.usiData.length - 1, (List.range sb.usiData.length).map σ⟩]) sb.generation = _ :=
    putmapAt_append_self (by simpa using hlen) _
  have hlow : ∀ g < sb.generation, putmapAt first (newlist.map (Option.map go) ++
      [some ⟨openedAt files sb.generation, sb.usiData.length - 1,
        (List.range sb.usiData.length).map σ⟩]) g = (sb.putmapOf g).map go := fun g hg => by
    rw [putmapAt_append (by rw [List.length_map]; omega), putmapAt_map, hmaps g hg]
  refine h.renumber σ rfl rfl hpos ?_ hbranches hoverlap hcount hroot ?_ ?_
  · simp only [List.length_append, List.length_map, List.length_singleton]
    omega
  · intro g hg i j hj hlt
    rw [SbInfo.numberOf, if_neg (by simp only; omega), SbInfo.putmapOf]
    by_cases hcur : g = sb.generation
    · subst hcur
      rw [SbInfo.numberOf, if_pos rfl, Option.some.injEq] at hj
      rw [hself, Option.bind_some, if_pos (by simp only; omega), List.getElem?_map,
        List.getElem?_range (by omega), hj]
      rfl
    · rw [SbInfo.numberOf, if_neg hcur] at hj
      have ⟨m, hm, hmi⟩ := Option.bind_eq_some_iff.mp hj
      rw [hlow g (by omega), hm, Option.map_some, Option.bind_some]
      show (if i ≤ m.bend then (go m).map[i]? else none) = some (σ j)
      by_cases hb : i ≤ m.bend
      · rw [if_pos hb] at hmi ⊢
        rw [List.getElem?_map, hmi, Option.map_some, List.getElem?_map, List.getElem?_range hlt]
        rfl
      · rw [if_neg hb] at hmi
        simp at hmi
  · intro g hg
    rw [SbInfo.putmapOf]
    by_cases hcur : g = sb.generation
    · subst hcur
      rw [hself]
      rfl
    · rw [hlow g (by omega), ← h.counts g (by omega)]
      cases sb.putmapOf g <;> rfl

/-- A branch that no file is open in has no lower file. -/
theorem Inv.opened_eq_zero {sb : SbInfo} {files : List UnionFile} (h : Inv sb files)
    {r : HiddenRoot} (hr : r ∉ sb.usiData.map UsiData.root) : opened files r = 0 := by
  rw [opened, List.sum_eq_zero_iff]
  intro n hn
  have ⟨f, hf, hfn⟩ := List.mem_map.mp hn
  rw [← hfn]
  refine List.count_eq_zero.mpr fun hmem => hr ?_
  have ⟨x, hx, hxr⟩ := List.mem_map.mp hmem
  have ⟨j, _, hj⟩ := h.number f hf x hx
  have ⟨d, hd, hdr⟩ := Option.map_eq_some_iff.mp hj
  exact List.mem_map.mpr ⟨d, List.mem_of_getElem? hd, by rw [hdr, hxr]⟩

theorem newputmap_eq_some {kmalloc : Nat → Nat} {sb sb' : SbInfo}
    (hmap : newputmap kmalloc sb = some sb') : sb' = sb.withNewmap := by
  rw [newputmap] at hmap
  by_cases hfull : sb.Full kmalloc
  · rw [if_pos hfull] at hmap
    simp at hmap
  · rw [if_neg hfull] at hmap
    exact (Option.some.inj hmap).symm

/-- A branch that was added. -/
theorem Inv.addbranch {sb : SbInfo} {files : List UnionFile} (h : Inv sb files)
    {kmalloc beyond : Nat → Nat} {path : Except Errno HiddenRoot} {branch : Nat}
    {perms : BitVec 32} {r : SbInfo × Except Errno Unit}
    (hadd : unionfsIoctlAddbranch kmalloc beyond sb path branch perms = some r) :
    Inv r.1 files := by
  unfold unionfsIoctlAddbranch at hadd
  by_cases hbits : perms &&& ~~~mayAll ≠ 0
  · rw [if_pos hbits] at hadd
    simp at hadd
  by_cases hread : perms &&& mayRead = 0
  · rw [if_neg hbits, if_pos hread] at hadd
    simp at hadd
  by_cases hmany : 1024 < sb.usiData.length - 1
  · rw [if_neg hbits, if_neg hread, if_pos hmany] at hadd
    simp at hadd
  rw [if_neg hbits, if_neg hread, if_neg hmany] at hadd
  cases path with
  | error e => simp at hadd
  | ok root =>
  simp only at hadd
  by_cases hoverlap : sb.usiData.any fun d => isBranchOverlap d.root root
  · rw [if_pos hoverlap] at hadd
    rw [← Option.some.inj hadd]
    exact h
  by_cases hbranch : sb.usiData.length < branch
  · rw [if_neg hoverlap, if_pos hbranch] at hadd
    rw [← Option.some.inj hadd]
    exact h
  rw [if_neg hoverlap, if_neg hbranch] at hadd
  obtain ⟨sb', hmap, hadd⟩ := Option.bind_eq_some_iff.mp hadd
  rw [newputmap_eq_some hmap] at hadd
  rw [← Option.some.inj hadd]
  have hle : branch ≤ sb.usiData.length := by omega
  have hfree : ∀ r ∈ sb.usiData.map UsiData.root, isBranchOverlap root r = false := by
    intro r hr
    have ⟨d, hd, hdr⟩ := List.mem_map.mp hr
    rw [Bool.not_eq_true, List.any_eq_false] at hoverlap
    rw [← hdr, isBranchOverlap_comm]
    exact Bool.not_eq_true _ ▸ hoverlap d hd
  have hnew : root ∉ sb.usiData.map UsiData.root := fun hmem => by
    have hself := hfree root hmem
    rw [isBranchOverlap_self] at hself
    simp at hself
  have hperm : ((sb.usiData.insertIdx branch ⟨root, 0, perms⟩).map UsiData.root).Perm
      (root :: sb.usiData.map UsiData.root) :=
    (List.perm_insertIdx ⟨root, 0, perms⟩ sb.usiData hle).map UsiData.root
  have ⟨newlist, first, heq, _, hinv⟩ := h.change beyond (shiftUp branch)
    (sb.usiData.insertIdx branch ⟨root, 0, perms⟩) ?_ ?_ ?_ ?_
  · rw [← heq] at hinv
    exact hinv
  · intro hempty
    rw [hempty] at hperm
    simp at hperm
  · rw [hperm.pairwise_iff fun {d e} => by rw [isBranchOverlap_comm]; exact id]
    exact List.pairwise_cons.mpr ⟨hfree, h.overlap⟩
  · intro d hd
    rcases (List.mem_insertIdx hle).mp hd with hnewest | hold
    · rw [hnewest]
      show (0 : Int) = opened files root
      rw [h.opened_eq_zero hnew]
      rfl
    · exact h.count d hold
  · intro i r hr _
    rw [shiftUp]
    by_cases hbehind : branch ≤ i
    · rw [if_pos hbehind, List.getElem?_insertIdx_of_gt (by omega), Nat.add_sub_cancel]
      exact hr
    · rw [if_neg hbehind, List.getElem?_insertIdx_of_lt (by omega)]
      exact hr

/-- The newest map may go when it counts nothing. -/
theorem Inv.dropNewest {sb : SbInfo} {files : List UnionFile} (h : Inv sb files)
    {newlist : List (Option Putmap)} {m : Putmap} (hmaps : sb.putmaps = newlist ++ [some m])
    (hl : sb.lastputmap - sb.firstputmap = newlist.length) (hfirst : 0 < sb.firstputmap) :
    Inv (sb.onNewest fun m => if m.count = 0 then none else some m) files := by
  have hlast := h.last
  have hlength := h.length
  rw [hmaps, List.length_append, List.length_singleton, Nat.max_eq_right (by omega)] at hlength
  have hself : sb.putmapOf sb.lastputmap = some m := by
    rw [SbInfo.putmapOf, hmaps]
    exact putmapAt_append_self (by omega) _
  rw [onNewest_eq hmaps hl]
  by_cases hcount0 : m.count = 0
  · rw [if_pos hcount0]
    -- so no file of that generation has a lower file
    have hnone : openedAt files sb.lastputmap = 0 := by
      have hcounts := h.counts sb.lastputmap (by omega)
      rw [hself] at hcounts
      have hcount : m.count = openedAt files sb.lastputmap := hcounts
      omega
    have hother : ∀ g, g ≠ sb.lastputmap → g < sb.generation →
        putmapAt sb.firstputmap (newlist ++ [none]) g = sb.putmapOf g := fun g hg hlt => by
      rw [SbInfo.putmapOf, hmaps, putmapAt_append (by omega), putmapAt_append (by omega)]
    refine ⟨h.branches, h.overlap, h.count, hlast, fun hzero => ?_, ?_, h.le, fun f hf x hx => ?_,
      fun g hg => ?_⟩
    · have hfirst0 : sb.firstputmap = 0 := hzero
      omega
    · show (newlist ++ [none]).length + max 1 sb.firstputmap = sb.generation
      rw [List.length_append, List.length_singleton, Nat.max_eq_right (by omega)]
      omega
    · have ⟨j, hj, hr⟩ := h.number f hf x hx
      refine ⟨j, ?_, hr⟩
      have hle := h.le f hf
      have hne : f.generation ≠ sb.lastputmap := fun heq => by
        have hpos := openedAt_pos hf hx
        rw [heq, hnone] at hpos
        omega
      by_cases hcur : f.generation = sb.generation
      · rw [SbInfo.numberOf, if_pos hcur] at hj ⊢
        exact hj
      · rw [SbInfo.numberOf, if_neg hcur] at hj
        rw [SbInfo.numberOf, if_neg hcur, SbInfo.putmapOf, hother _ hne (by omega)]
        exact hj
    · have hg' : g < sb.generation := hg
      rw [SbInfo.putmapOf]
      by_cases heq : g = sb.lastputmap
      · rw [heq, hnone]
        show putmapCount (putmapAt sb.firstputmap (newlist ++ [none]) sb.lastputmap) = _
        rw [putmapAt_append_self (by omega)]
        rfl
      · show putmapCount (putmapAt sb.firstputmap (newlist ++ [none]) g) = _
        rw [hother g heq hg', h.counts g hg']
  · rw [if_neg hcount0, ← hmaps]
    exact h

/-- A branch that was deleted. -/
theorem Inv.delbranch {sb : SbInfo} {files : List UnionFile} (h : Inv sb files)
    {kmalloc beyond : Nat → Nat} {branch : Nat} {r : SbInfo × Except Errno Unit}
    (hdel : unionfsIoctlDelbranch kmalloc beyond sb branch = some r) : Inv r.1 files := by
  rw [unionfsIoctlDelbranch] at hdel
  by_cases hone : sb.usiData.length = 1
  · rw [if_pos hone] at hdel
    rw [← Option.some.inj hdel]
    exact h
  rw [if_neg hone] at hdel
  cases hd : sb.usiData[branch]? with
  | none =>
    rw [hd] at hdel
    rw [← Option.some.inj hdel]
    exact h
  | some d =>
    rw [hd] at hdel
    simp only at hdel
    by_cases hbusy : d.sbcount ≠ 0
    · rw [if_pos hbusy] at hdel
      rw [← Option.some.inj hdel]
      exact h
    rw [if_neg hbusy] at hdel
    obtain ⟨sb', hmap, hdel⟩ := Option.bind_eq_some_iff.mp hdel
    rw [newputmap_eq_some hmap] at hdel
    rw [← Option.some.inj hdel]
    have hlt : branch < sb.usiData.length := by
      by_contra hge
      rw [List.getElem?_eq_none (by omega)] at hd
      simp at hd
    have hzero : opened files d.root = 0 := by
      have hcount := h.count d (List.mem_of_getElem? hd)
      omega
    have hsub := List.eraseIdx_sublist sb.usiData branch
    have ⟨newlist, first, heq, hlen, hinv⟩ := h.change beyond (shiftDown branch)
      (sb.usiData.eraseIdx branch) ?_ ?_ ?_ ?_
    · have hpos : 0 < first := by
        by_contra hfirst
        have hnil := hinv.start (by simp only; omega)
        simp at hnil
      have hdrop := hinv.dropNewest rfl (by simp only; omega) hpos
      rw [← heq] at hdrop
      exact hdrop
    · intro hempty
      have hlen := congrArg List.length hempty
      rw [List.length_eraseIdx_of_lt hlt, List.length_nil] at hlen
      omega
    · exact h.overlap.sublist (hsub.map UsiData.root)
    · exact fun d' hd' => h.count d' (hsub.subset hd')
    · intro i r hr hpos
      have hne : i ≠ branch := fun heq => by
        rw [heq, SbInfo.rootAt, hd, Option.map_some, Option.some.injEq] at hr
        rw [← hr, hzero] at hpos
        omega
      rw [shiftDown]
      by_cases hbehind : branch < i
      · rw [if_pos hbehind, List.getElem?_eraseIdx_of_ge (by omega),
          Nat.sub_add_cancel (by omega)]
        exact hr
      · rw [if_neg hbehind, List.getElem?_eraseIdx_of_lt (by omega)]
        exact hr

/-- A mode that was changed, which is neither a directory nor a count. -/
theorem Inv.rdwrbranch {sb sb' : SbInfo} {files : List UnionFile} (h : Inv sb files)
    {kmalloc : Nat → Nat} {branch : Nat} {perms : BitVec 32}
    (hok : unionfsIoctlRdwrbranch kmalloc sb branch perms = some (sb', .ok ())) :
    Inv sb' files := by
  have hinc := h.incgen
  rw [unionfsIoctlRdwrbranch] at hok
  obtain ⟨new, hmap, hok⟩ := Option.bind_eq_some_iff.mp hok
  rw [← newputmap_eq_some hmap] at hinc
  by_cases hbeyond : new.usiData.length < branch
  · rw [if_pos hbeyond] at hok
    simp at hok
  by_cases hbits : perms &&& ~~~mayAll ≠ 0
  · rw [if_neg hbeyond, if_pos hbits] at hok
    simp at hok
  by_cases hread : perms &&& mayRead = 0
  · rw [if_neg hbeyond, if_neg hbits, if_pos hread] at hok
    simp at hok
  by_cases hlast : branch = new.usiData.length
  · rw [if_neg hbeyond, if_neg hbits, if_neg hread, if_pos hlast] at hok
    simp at hok
  rw [if_neg hbeyond, if_neg hbits, if_neg hread, if_neg hlast] at hok
  rw [← (Prod.mk.inj (Option.some.inj hok)).1]
  have hroot : (new.usiData.modify branch fun d => { d with branchperms := perms }).map
      UsiData.root = new.usiData.map UsiData.root := by
    apply List.ext_getElem?
    intro k
    simp only [List.getElem?_map, List.getElem?_modify]
    cases new.usiData[k]? with
    | none => rfl
    | some d => split_ifs <;> rfl
  refine ⟨?_, ?_, ?_, hinc.last, hinc.start, hinc.length, hinc.le, fun f hf x hx => ?_, hinc.counts⟩
  · intro hempty
    have hroots := congrArg (List.map UsiData.root) hempty
    simp only [hroot] at hroots
    exact hinc.branches (List.map_eq_nil_iff.mp hroots)
  · simp only [hroot]
    exact hinc.overlap
  · intro d hd
    obtain ⟨k, hk⟩ := List.mem_iff_getElem?.mp hd
    simp only [List.getElem?_modify] at hk
    cases hold : new.usiData[k]? with
    | none => simp [hold] at hk
    | some old =>
      have hcount := hinc.count old (List.mem_of_getElem? hold)
      rw [hold] at hk
      rw [← Option.some.inj hk]
      split_ifs <;> exact hcount
  · obtain ⟨j, hj, hr⟩ := hinc.number f hf x hx
    refine ⟨j, hj, ?_⟩
    have hrootj := congrArg (·[j]?) hroot
    simp only [List.getElem?_map] at hrootj
    rw [SbInfo.rootAt]
    simp only [hrootj]
    exact hr

/-! ## What stops the kernel -/

section
variable {kmalloc beyond : Nat → Nat} {m : Mount} {branch : Nat} {perms : BitVec 32}

/-- `newputmap` stops the kernel only when its list is full. -/
theorem full_of_newputmap {sb : SbInfo} (hmap : newputmap kmalloc sb = none) :
    sb.Full kmalloc := by
  by_contra hfull
  rw [newputmap, if_neg hfull] at hmap
  simp at hmap

/-- A request for a branch that is not refused early stops the kernel only for lack of room. -/
theorem full_of_addbranch {path : Except Errno HiddenRoot}
    (hev : ¬ Event.Refused m (.addbranch path branch perms))
    (hadd : unionfsIoctlAddbranch kmalloc beyond m.sb path branch perms = none) :
    m.sb.Full kmalloc := by
  simp only [Event.Refused, not_or, not_not, not_forall] at hev
  obtain ⟨⟨hbits, hread⟩, hmany, root, hpath⟩ := hev
  unfold unionfsIoctlAddbranch at hadd
  rw [if_neg (not_not.mpr hbits), if_neg hread, if_neg hmany, hpath] at hadd
  simp only at hadd
  split_ifs at hadd
  cases hmap : newputmap kmalloc m.sb with
  | none => exact full_of_newputmap hmap
  | some sb => simp [hmap] at hadd

/-- `unionfs_ioctl_delbranch` stops it for no other reason. -/
theorem full_of_delbranch
    (hdel : unionfsIoctlDelbranch kmalloc beyond m.sb branch = none) : m.sb.Full kmalloc := by
  rw [unionfsIoctlDelbranch] at hdel
  split_ifs at hdel
  cases hd : m.sb.usiData[branch]? with
  | none => simp [hd] at hdel
  | some d =>
    rw [hd] at hdel
    simp only at hdel
    split_ifs at hdel
    cases hmap : newputmap kmalloc m.sb with
    | none => exact full_of_newputmap hmap
    | some sb => simp [hmap] at hdel

/-- A request for a mode that is not refused succeeds, or there is no room. -/
theorem rdwrbranch_cases (hev : ¬ Event.Refused m (.rdwrbranch branch perms)) :
    unionfsIoctlRdwrbranch kmalloc m.sb branch perms = none ∧ m.sb.Full kmalloc ∨
      ∃ sb, unionfsIoctlRdwrbranch kmalloc m.sb branch perms = some (sb, .ok ()) := by
  simp only [Event.Refused, not_or, not_not, not_le] at hev
  obtain ⟨⟨hbits, hread⟩, hbranch⟩ := hev
  rw [unionfsIoctlRdwrbranch]
  cases hmap : newputmap kmalloc m.sb with
  | none => exact .inl ⟨rfl, full_of_newputmap hmap⟩
  | some sb =>
    have hlen : branch < sb.usiData.length := by
      rw [newputmap_eq_some hmap]
      exact hbranch
    refine .inr ⟨{ sb with
      usiData := sb.usiData.modify branch fun d => { d with branchperms := perms }
      generation := sb.generation + 1 }, ?_⟩
    show (if sb.usiData.length < branch then _ else _) = _
    rw [if_neg (Nat.not_lt.mpr hlen.le), if_neg (not_not.mpr hbits), if_neg hread,
      if_neg hlen.ne]

end

/-! ## Every run -/

/-- A union just mounted has the invariant. -/
theorem Mounted.inv {m : Mount} (h : Mounted m) : Inv m.sb m.files where
  branches := h.branches
  overlap := by
    rw [List.pairwise_map]
    exact h.overlap
  count d hd := by
    rw [h.counts d hd, h.files]
    rfl
  last := by rw [h.lastputmap, h.generation]
  start _ := h.putmaps
  length := by
    rw [h.putmaps, h.firstputmap, h.generation]
    rfl
  le f hf := by
    rw [h.files] at hf
    exact absurd hf List.not_mem_nil
  number f hf := by
    rw [h.files] at hf
    exact absurd hf List.not_mem_nil
  counts g _ := by
    rw [h.files, SbInfo.putmapOf, h.putmaps]
    by_cases hfirst : m.sb.firstputmap ≤ g
    · rw [putmapAt_of_le _ hfirst]
      rfl
    · rw [putmapAt_of_lt _ (by omega)]
      rfl

/-- One event: the counts stay right, and the kernel goes on as long as there is room. -/
theorem Inv.step {m : Mount} (h : Inv m.sb m.files) (kmalloc beyond : Nat → Nat) (ev : Event)
    (hev : ¬ ev.Refused m) :
    (∀ m', m.step kmalloc beyond ev = some m' → Inv m'.sb m'.files) ∧
      (m.step kmalloc beyond ev = none → ev.Overruns kmalloc m) := by
  have hsome : ∀ m₁, m.step kmalloc beyond ev = some m₁ → Inv m₁.sb m₁.files →
      (∀ m', m.step kmalloc beyond ev = some m' → Inv m'.sb m'.files) ∧
        (m.step kmalloc beyond ev = none → ev.Overruns kmalloc m) := by
    intro m₁ hstep hinv
    rw [hstep]
    exact ⟨fun m' heq => Option.some.inj heq ▸ hinv, fun heq => by simp at heq⟩
  cases ev with
  | openFile dentries => exact hsome _ rfl (h.openFile dentries)
  | release k =>
    cases hk : m.files[k]? with
    | none => exact hsome m (by simp only [Mount.step, hk]) h
    | some file =>
      obtain ⟨hlt, hfile⟩ := List.getElem?_eq_some_iff.mp hk
      have hperm := (List.getElem_cons_eraseIdx_perm hlt).symm
      rw [hfile] at hperm
      obtain ⟨sb', hput, hinv⟩ := (h.perm hperm).release
      exact hsome ⟨sb', m.files.eraseIdx k⟩ (by simp [Mount.step, hk, hput]) hinv
  | revalidate k dentries =>
    cases hk : m.files[k]? with
    | none => exact hsome m (by simp only [Mount.step, hk]) h
    | some file =>
      obtain ⟨hlt, hfile⟩ := List.getElem?_eq_some_iff.mp hk
      have hperm := (List.getElem_cons_eraseIdx_perm hlt).symm
      rw [hfile] at hperm
      obtain ⟨sb', hput, hinv⟩ := (h.perm hperm).release
      exact hsome
        ⟨(unionfsOpen sb' dentries).1, (unionfsOpen sb' dentries).2 :: m.files.eraseIdx k⟩
        (by simp [Mount.step, hk, hput]) (hinv.openFile dentries)
  | addbranch path branch perms =>
    cases hadd : unionfsIoctlAddbranch kmalloc beyond m.sb path branch perms with
    | none =>
      simp only [Mount.step, hadd]
      exact ⟨fun m' heq => by simp at heq, fun _ => full_of_addbranch hev hadd⟩
    | some r =>
      exact hsome { m with sb := r.1 } (by simp [Mount.step, hadd]) (h.addbranch hadd)
  | delbranch branch =>
    cases hdel : unionfsIoctlDelbranch kmalloc beyond m.sb branch with
    | none =>
      simp only [Mount.step, hdel]
      exact ⟨fun m' heq => by simp at heq, fun _ => full_of_delbranch hdel⟩
    | some r =>
      exact hsome { m with sb := r.1 } (by simp [Mount.step, hdel]) (h.delbranch hdel)
  | incgen =>
    cases hmap : newputmap kmalloc m.sb with
    | none =>
      simp only [Mount.step, unionfsIoctlIncgen, hmap]
      exact ⟨fun m' heq => by simp at heq, fun _ => full_of_newputmap hmap⟩
    | some sb =>
      refine hsome { m with sb := { sb with generation := sb.generation + 1 } }
        (by simp [Mount.step, unionfsIoctlIncgen, hmap]) ?_
      rw [newputmap_eq_some hmap]
      exact h.incgen
  | rdwrbranch branch perms =>
    rcases @rdwrbranch_cases kmalloc m branch perms hev with ⟨hnone, hfull⟩ | ⟨sb, hok⟩
    · simp only [Mount.step, hnone]
      exact ⟨fun m' heq => by simp at heq, fun _ => hfull⟩
    · exact hsome { m with sb := sb } (by simp [Mount.step, hok]) (h.rdwrbranch hok)

/-- So has every union that can be reached. -/
theorem Mount.Reachable.inv {kmalloc beyond : Nat → Nat} {m : Mount}
    (h : Mount.Reachable kmalloc beyond m) : Inv m.sb m.files := by
  induction h with
  | mounted h => exact h.inv
  | step _ ev hev hs ih => exact (ih.step kmalloc beyond ev hev).1 _ hs

end Kernel
