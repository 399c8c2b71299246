import Backpack.Kernel.LookupTheorems
import Backpack.Kernel.Operations

/-!
# Changes to the writable branch

In the unions of the live system and of the build only the leftmost branch can be written;
those right of it are squashfs images and read-only. An operation then ends in an edit of the
leftmost branch. This file has the edits, what they are for the layer of the branch and so
for the union, and what of a well-formed branch they keep.
-/

namespace Kernel

open Shell Overlay
open UnionFs (Path whPrefix)

variable {α : Type}

/-! ## Edits of a branch -/

/-- The directories down to `dir` as the union shows them, where the branch lacks them. -/
def copyNode (N V : Flat Text α) (dir : Path) : Flat Text α := fun q =>
  if q <+: dir then (N q).or (V q) else N q

/-- `x` at `dir/n` alone, a directory with its mark of an opaque one; or a whiteout for the name.
The file that is the mark or the whiteout has the attributes `mark`. -/
def graftNode (N : Flat Text α) (dir : Path) (n : Text) (x : Option (Inode α)) (mark : α) :
    Flat Text α := fun q =>
  if dir ++ [n] <+: q then
    if q = dir ++ [n] then x
    else if q = dir ++ [n] ++ [unionfsDirOpaque] ∧ x.any Inode.isDir = true then some (.reg mark)
    else none
  else if q = dir ++ [allocWhname n] then if x.isNone then some (.reg mark) else none
  else N q

theorem isValidname_unionfsDirOpaque : isValidname unionfsDirOpaque = false :=
  not_isValidname_allocWhname unionfsDirOpaqueName

/-- A path that ends in a name that is not valid is no part of one with valid names. -/
theorem not_prefix_of_invalid {p q : Path} {n : Text} (hq : q.all isValidname = true)
    (hn : isValidname n = false) : ¬ p ++ [n] <+: q := by
  intro h
  have hmem : n ∈ q := h.subset (by simp)
  have hvalid := List.all_eq_true.mp hq n hmem
  rw [hn] at hvalid
  simp at hvalid

/-- A path to a valid path is valid. -/
theorem isValidname_above {p q : Path} (hq : q.all isValidname = true) (h : p <+: q) :
    p.all isValidname = true :=
  List.all_eq_true.mpr fun n hn => List.all_eq_true.mp hq n (h.subset hn)

/-- Copying up in the branch is copying up in its layer. -/
theorem layerOf_copyNode (N V : Flat Text α) {dir : Path} (hdir : dir.all isValidname = true) :
    layerOf (copyNode N V dir) = (layerOf N).copyUp V dir := by
  have hwh : ∀ q n, isValidname n = false → copyNode N V dir (q ++ [n]) = N (q ++ [n]) :=
    fun q n hn => if_neg (not_prefix_of_invalid hdir hn)
  apply Layer.ext
  · funext q
    by_cases hq : q.all isValidname = true
    · simp only [Layer.copyUp, layerOf, copyNode, hq, if_true]
    · have hp : ¬ q <+: dir := fun h => hq (isValidname_above hdir h)
      simp only [Layer.copyUp, (layerOf_invalid hq).1, hp, if_false]
  · funext q
    simp only [Layer.copyUp, layerOf, hwh _ _ (not_isValidname_allocWhname _)]
  · funext q
    simp only [Layer.copyUp, layerOf, hwh _ _ isValidname_unionfsDirOpaque]

/-- The graft at a path with valid names, for each place that a layer looks at. -/
theorem graftNode_of_valid {N : Flat Text α} {dir : Path} {n : Text} {x : Option (Inode α)}
    {mark : α} {q : Path} (hq : q.all isValidname = true) :
    graftNode N dir n x mark q = N.set (dir ++ [n]) x q := by
  have hm : q ≠ dir ++ [n] ++ [unionfsDirOpaque] := by
    intro h
    rw [h, List.all_append] at hq
    simp [isValidname_unionfsDirOpaque] at hq
  have hw : q ≠ dir ++ [allocWhname n] := by
    intro h
    rw [h, List.all_append] at hq
    simp [not_isValidname_allocWhname] at hq
  simp only [graftNode, Flat.set, hm, hw, false_and, if_false]

theorem ne_of_isValidname {m n : Text} (hm : isValidname m = true) (hn : isValidname n = false) :
    m ≠ n := by
  intro h
  rw [h, hn] at hm
  simp at hm

/-- The whiteout of a valid name is not the opaque mark. -/
theorem allocWhname_ne_unionfsDirOpaque {m : Text} (hm : isValidname m = true) :
    allocWhname m ≠ unionfsDirOpaque :=
  fun h => ne_of_isValidname hm (by decide) (allocWhname_injective h)

/-- The whiteouts after a name has been replaced. -/
theorem isSome_graftNode_whiteout {N : Flat Text α} {dir r : Path} {n m : Text}
    (hn : isValidname n = true) (hm : isValidname m = true) (x : Option (Inode α)) (mark : α) :
    (graftNode N dir n x mark (r ++ [allocWhname m])).isSome =
      if dir ++ [n] <+: r ++ [m] then decide (r ++ [m] = dir ++ [n]) && x.isNone
      else (N (r ++ [allocWhname m])).isSome := by
  have hne : dir ++ [n] ≠ r ++ [allocWhname m] := fun h =>
    ne_of_isValidname hn (not_isValidname_allocWhname m)
      (List.singleton_inj.mp (List.append_inj_right' h rfl))
  by_cases hbelow : dir ++ [n] <+: r
  · -- further down nothing is left
    have hself : r ++ [m] ≠ dir ++ [n] := by
      intro h
      have hlen := hbelow.length_le
      rw [← h] at hlen
      simp at hlen
    have hmark : r ++ [allocWhname m] ≠ dir ++ [n] ++ [unionfsDirOpaque] := fun h =>
      allocWhname_ne_unionfsDirOpaque hm (List.singleton_inj.mp (List.append_inj_right' h rfl))
    have hname : dir ++ [n] <+: r ++ [m] := hbelow.trans (List.prefix_append r [m])
    have hwhiteout : dir ++ [n] <+: r ++ [allocWhname m] := hbelow.trans (List.prefix_append r _)
    rw [graftNode, if_pos hwhiteout, if_neg hne.symm, if_neg (fun h => hmark h.1), if_pos hname]
    simp [hself]
  · have hwhiteout : ¬ dir ++ [n] <+: r ++ [allocWhname m] := fun h =>
      (List.prefix_concat_iff.mp h).elim hne hbelow
    by_cases hself : r ++ [m] = dir ++ [n]
    · have hsame : r ++ [allocWhname m] = dir ++ [allocWhname n] := by
        have hsplit := List.append_inj' hself rfl
        rw [hsplit.1, List.singleton_inj.mp hsplit.2]
      rw [graftNode, if_neg hwhiteout, if_pos hsame, hself]
      cases x <;> simp
    · have hsame : r ++ [allocWhname m] ≠ dir ++ [allocWhname n] := by
        intro h
        have hsplit := List.append_inj' h rfl
        exact hself (by rw [hsplit.1, allocWhname_injective (List.singleton_inj.mp hsplit.2)])
      have hname : ¬ dir ++ [n] <+: r ++ [m] := fun h =>
        (List.prefix_concat_iff.mp h).elim (fun h => hself h.symm) hbelow
      rw [graftNode, if_neg hwhiteout, if_neg hsame, if_neg hname]

/-- The opaque marks after a name has been replaced. -/
theorem isSome_graftNode_opaque {N : Flat Text α} {dir q : Path} {n : Text}
    (hn : isValidname n = true) (x : Option (Inode α)) (mark : α) :
    (graftNode N dir n x mark (q ++ [unionfsDirOpaque])).isSome =
      if dir ++ [n] <+: q then decide (q = dir ++ [n]) && x.any Inode.isDir
      else (N (q ++ [unionfsDirOpaque])).isSome := by
  have hne : dir ++ [n] ≠ q ++ [unionfsDirOpaque] := fun h =>
    ne_of_isValidname hn isValidname_unionfsDirOpaque
      (List.singleton_inj.mp (List.append_inj_right' h rfl))
  by_cases hbelow : dir ++ [n] <+: q
  · have hmark : dir ++ [n] <+: q ++ [unionfsDirOpaque] := hbelow.trans (List.prefix_append q _)
    rw [graftNode, if_pos hmark, if_neg hne.symm, if_pos hbelow]
    by_cases hself : q = dir ++ [n]
    · by_cases hisdir : x.any Inode.isDir = true
      · simp [hself, hisdir]
      · simp [hself, hisdir]
    · have hmark : q ++ [unionfsDirOpaque] ≠ dir ++ [n] ++ [unionfsDirOpaque] := fun h =>
        hself (List.append_cancel_right h)
      rw [if_neg (fun h => hmark h.1)]
      simp [hself]
  · have hmark : ¬ dir ++ [n] <+: q ++ [unionfsDirOpaque] := fun h =>
      (List.prefix_concat_iff.mp h).elim hne hbelow
    have hwhiteout : q ++ [unionfsDirOpaque] ≠ dir ++ [allocWhname n] := fun h =>
      allocWhname_ne_unionfsDirOpaque hn (List.singleton_inj.mp (List.append_inj_right' h rfl)).symm
    rw [graftNode, if_neg hmark, if_neg hwhiteout, if_neg hbelow]

/-- Replacing a name in the branch, with whiteout and mark, is replacing it in the layer. -/
theorem layerOf_graftNode (N : Flat Text α) {dir : Path} {n : Text}
    (hdir : dir.all isValidname = true) (hn : isValidname n = true) (x : Option (Inode α))
    (mark : α) :
    layerOf (graftNode N dir n x mark) = (layerOf N).graft (dir ++ [n]) x := by
  have hp : (dir ++ [n]).all isValidname = true := by simp [hdir, hn]
  apply Layer.ext
  · funext q
    by_cases hq : q.all isValidname = true
    · rw [layerOf_entry hq, graftNode_of_valid hq]
      simp only [Layer.graft, Flat.set, layerOf_entry hq]
    · have hne : q ≠ dir ++ [n] := fun h => hq (h ▸ hp)
      simp only [Layer.graft, Flat.set, (layerOf_invalid hq).1, hne, if_false]
      split_ifs <;> rfl
  · funext q
    by_cases hq : q.all isValidname = true
    · rcases List.eq_nil_or_concat q with h | ⟨r, m, h⟩
      · subst h
        simp [layerOf, Layer.graft]
      rw [List.concat_eq_append] at h
      subst h
      have hm : isValidname m = true := List.all_eq_true.mp hq m (by simp)
      rw [layerOf_whiteout hq, isSome_graftNode_whiteout hn hm, Layer.graft]
      simp only [layerOf_whiteout hq]
    · have hne : q ≠ dir ++ [n] := fun h => hq (h ▸ hp)
      simp [Layer.graft, layerOf_invalid hq, hne]
  · funext q
    by_cases hq : q.all isValidname = true
    · rw [layerOf_closedOff hq, isSome_graftNode_opaque hn, Layer.graft]
      simp only [layerOf_closedOff hq]
    · have hne : q ≠ dir ++ [n] := fun h => hq (h ▸ hp)
      simp [Layer.graft, layerOf_invalid hq, hne]

/-- Changing an inode in the branch is changing it in the layer. -/
theorem layerOf_alter (N : Flat Text α) {p : Path} (hp : p.all isValidname = true) (i : Inode α) :
    layerOf (N.alter p i) = (layerOf N).alter p i := by
  have hne : ∀ q m, isValidname m = false → q ++ [m] ≠ p := by
    intro q m hm h
    rw [← h] at hp
    simp [hm] at hp
  apply Layer.ext
  · funext q
    by_cases hq : q.all isValidname = true
    · simp only [Layer.alter, layerOf_entry hq, Flat.alter]
    · have hne : q ≠ p := fun h => hq (h ▸ hp)
      simp only [Layer.alter, (layerOf_invalid hq).1, Flat.alter, hne, if_false]
  · funext q
    simp only [Layer.alter, layerOf, Flat.alter, hne _ _ (not_isValidname_allocWhname _), if_false]
  · funext q
    simp only [Layer.alter, layerOf, Flat.alter, hne _ _ isValidname_unionfsDirOpaque, if_false]

/-! The edits, when nothing is in the way. -/

section

variable {M : Flat Text α} {dir : Path} {n : Text}

/-- Below what is no directory there is nothing. -/
theorem none_below (hM : M.Closed) (hp : ¬ M.IsDirAt (dir ++ [n])) {q : Path}
    (h : dir ++ [n] <+: q) (hne : q ≠ dir ++ [n]) : M q = none := by
  have ⟨r, hr⟩ := h
  have hr0 : r ≠ [] := by
    intro hnil
    rw [hnil, List.append_nil] at hr
    exact hne hr.symm
  rw [← hr]
  exact hM.none_append hr0 hp

theorem not_prefix_whiteout (hn : isValidname n = true) :
    ¬ dir ++ [n] <+: dir ++ [allocWhname n] := by
  intro h
  have heq := h.eq_of_length (by simp)
  exact ne_of_isValidname hn (not_isValidname_allocWhname n)
    (List.singleton_inj.mp (List.append_inj_right' heq rfl))

/-- A file that is made takes the whiteout away. -/
theorem graftNode_make (hM : M.Closed) (hn : isValidname n = true)
    (hp : M (dir ++ [n]) = none) {x : Inode α} (hx : x.isDir = false) (mark : α) :
    graftNode M dir n (some x) mark = fun q =>
      if q = dir ++ [n] then some x else if q = dir ++ [allocWhname n] then none else M q := by
  funext q
  by_cases hself : q = dir ++ [n]
  · simp [graftNode, hself]
  by_cases hbelow : dir ++ [n] <+: q
  · have hwh : q ≠ dir ++ [allocWhname n] := fun h => not_prefix_whiteout hn (h ▸ hbelow)
    have hnone := none_below hM (Flat.not_isDirAt hp) hbelow hself
    simp [graftNode, hself, hbelow, hwh, hx, hnone]
  · simp [graftNode, hself, hbelow]

/-- So does a directory, which is opaque. -/
theorem graftNode_mkdir (hM : M.Closed) (hn : isValidname n = true)
    (hp : M (dir ++ [n]) = none) {x : Inode α} (hx : x.isDir = true) (mark : α) :
    graftNode M dir n (some x) mark = fun q =>
      if q = dir ++ [n] ++ [unionfsDirOpaque] then some (.reg mark)
      else if q = dir ++ [n] then some x
      else if q = dir ++ [allocWhname n] then none else M q := by
  funext q
  by_cases hself : q = dir ++ [n]
  · simp [graftNode, hself]
  by_cases hmark : q = dir ++ [n] ++ [unionfsDirOpaque]
  · simp [graftNode, hmark, hx]
  by_cases hbelow : dir ++ [n] <+: q
  · have hwh : q ≠ dir ++ [allocWhname n] := fun h => not_prefix_whiteout hn (h ▸ hbelow)
    simp only [graftNode, hself, hbelow, hwh, hmark, false_and, if_true, if_false]
    exact (none_below hM (Flat.not_isDirAt hp) hbelow hself).symm
  · simp only [graftNode, hself, hbelow, hmark, if_false]
    rfl

/-- What is deleted leaves a whiteout. -/
theorem graftNode_delete (hM : M.Closed) (hn : isValidname n = true)
    (hp : ¬ M.IsDirAt (dir ++ [n])) (mark : α) :
    graftNode M dir n none mark = fun q =>
      if q = dir ++ [n] then none
      else if q = dir ++ [allocWhname n] then some (.reg mark) else M q := by
  funext q
  by_cases hself : q = dir ++ [n]
  · simp [graftNode, hself]
  by_cases hbelow : dir ++ [n] <+: q
  · have hwh : q ≠ dir ++ [allocWhname n] := fun h => not_prefix_whiteout hn (h ▸ hbelow)
    have hnone := none_below hM hp hbelow hself
    simp [graftNode, hself, hbelow, hwh, hnone]
  · simp [graftNode, hself, hbelow]

/-- Nothing is copied where the branch has the directory. -/
theorem copyNode_of_isDirAt {V : Flat Text α} (hM : M.Closed) (h : M.IsDirAt dir) :
    copyNode M V dir = M := by
  funext q
  rw [copyNode]
  split_ifs with habove
  · have hsome : M q ≠ none := by
      have ⟨r, hr⟩ := habove
      by_cases hnil : r = []
      · rw [hnil, List.append_nil] at hr
        exact hr ▸ h.ne_none
      · exact (hM.isDirAt_append hnil (hr ▸ h.ne_none)).ne_none
    have ⟨x, hx⟩ := Option.ne_none_iff_exists'.mp hsome
    rw [hx]
    rfl
  · rfl

/-- Copying up touches the path to the directory only. -/
theorem copyNode_of_not_prefix {V : Flat Text α} {q : Path} (h : ¬ q <+: dir) :
    copyNode M V dir q = M q := if_neg h

theorem copyNode_child {V : Flat Text α} (m : Text) :
    copyNode M V dir (dir ++ [m]) = M (dir ++ [m]) := by
  refine copyNode_of_not_prefix fun h => ?_
  have := h.length_le
  simp at this

end

/-! ## Well-formed branches -/

/-- A branch as unionfs leaves it: apart from entries with valid names there are whiteouts for such
names and marks of opaque directories, both regular files, and nothing has a whiteout beside it. -/
structure Proper (N : Flat Text α) : Prop where
  names : ∀ p n, N (p ++ [n]) ≠ none →
    isValidname n = true ∨
      (∃ m, m ≠ [] ∧ isValidname m = true ∧ n = allocWhname m) ∨ n = unionfsDirOpaque
  reg : ∀ p n x, N (p ++ [allocWhname n]) = some x → x.isReg = true
  once : ∀ p n, isValidname n = true → N (p ++ [allocWhname n]) ≠ none → N (p ++ [n]) = none

/-- A file system that no union wrote to, with no name that unionfs keeps for itself. -/
theorem Proper.of_valid {N : Flat Text α} (h : ∀ p n, N (p ++ [n]) ≠ none → isValidname n = true) :
    Proper N where
  names p n hn := .inl (h p n hn)
  reg p n x hx := by
    have hvalid := h p (allocWhname n) (by simp [hx])
    simp [not_isValidname_allocWhname] at hvalid
  once p n _ hn := by
    have hvalid := h p (allocWhname n) hn
    simp [not_isValidname_allocWhname] at hvalid

/-- A file system with one file. -/
def oneFile : Tree Nat := (Tree.empty 0).insert [] ['f'] (.reg 1) rfl rfl

theorem oneFile_valid (p : Path) (n : Text) (h : oneFile.node (p ++ [n]) ≠ none) :
    isValidname n = true := by
  by_cases hfile : p ++ [n] = [] ++ [['f']]
  · rw [List.singleton_inj.mp (List.append_inj' hfile rfl).2]
    rfl
  · simp only [oneFile, Tree.insert, if_neg hfile, Tree.empty] at h
    simp at h

/-- A union of a writable branch on read-only ones. -/
structure Live (b : Branch α) (rest : Stack α) : Prop where
  mayWrite : b.mayWrite = true
  rdonly : b.rdonly = false
  others : ∀ c ∈ rest, c.mayWrite = false ∧ c.rdonly = true
  proper : ∀ c ∈ b :: rest, Proper c.tree.node

/-- The union is the first branch over the others. -/
theorem unionView_cons (b : Branch α) (rest : Stack α) :
    unionView (b :: rest) = Overlay.view (layerOf b.tree.node :: layers rest) := rfl

theorem layers_closed (s : Stack α) : ∀ l ∈ layers s, l.Closed := by
  intro l hl
  have ⟨c, _, h⟩ := List.mem_map.mp hl
  exact h ▸ c.tree.layer_closed

/-- Whiteouts in the leftmost branch hide, whatever the others have. -/
theorem unionView_of_whiteout {b : Branch α} (rest : Stack α) {p : Path} {n : Text}
    (hv : (p ++ [n]).all isValidname = true) (h : b.tree.node (p ++ [allocWhname n]) ≠ none) :
    unionView (b :: rest) (p ++ [n]) = none := by
  refine view_whiteout b.tree.layer_closed (by simp) ?_ _
  rw [Tree.layer, layerOf_whiteout hv]
  exact Option.isSome_iff_ne_none.mpr h

/-- What the leftmost branch has is what the union shows. -/
theorem unionView_of_node {b : Branch α} (rest : Stack α) (hp : Proper b.tree.node) {p : Path}
    (hv : p.all isValidname = true) {x : Inode α} (h : b.tree.node p = some x) :
    unionView (b :: rest) p = some x := by
  refine view_top b.tree.layer_closed (fun q hq => ?_) ?_ _
  · by_cases hqv : q.all isValidname = true
    · rcases List.eq_nil_or_concat q with hq' | ⟨r, m, hq'⟩
      · subst hq'
        simp [Tree.layer, layerOf] at hq
      rw [List.concat_eq_append] at hq'
      subst hq'
      rw [Tree.layer, layerOf_whiteout hqv] at hq
      rw [Tree.layer, layerOf_entry hqv]
      exact hp.once r m (List.all_eq_true.mp hqv m (by simp)) (Option.isSome_iff_ne_none.mp hq)
    · exact (layerOf_invalid hqv).1
  · rw [Tree.layer, layerOf_entry hv, h]

/-- A name replaced in the copied up branch is replaced in the union. -/
theorem unionView_graft {b : Branch α} {rest : Stack α} {dir : Path}
    (hd : (unionView (b :: rest)).IsDirAt dir) {n : Text} (hn : isValidname n = true)
    {x : Option (Inode α)} {mark : α} {t : Tree α}
    (ht : t.node = graftNode (copyNode b.tree.node (unionView (b :: rest)) dir) dir n x mark) :
    unionView ({ b with tree := t } :: rest) = (unionView (b :: rest)).set (dir ++ [n]) x := by
  have hdir := valid_of_unionView hd.ne_none
  rw [unionView_cons, ht, layerOf_graftNode _ hdir hn, layerOf_copyNode _ _ hdir]
  exact view_graft b.tree.layer_closed b.tree.layer_root (layers_closed rest) hd n x

/-- An inode changed in the copied up branch is changed in the union. -/
theorem unionView_alter {b : Branch α} {rest : Stack α} {dir : Path}
    (hd : (unionView (b :: rest)).IsDirAt dir) {n : Text} {i j : Inode α}
    (hj : unionView (b :: rest) (dir ++ [n]) = some j) (hij : i.isDir = j.isDir) {t : Tree α}
    (ht : t.node = (copyNode b.tree.node (unionView (b :: rest)) dir).alter (dir ++ [n]) i) :
    unionView ({ b with tree := t } :: rest) = (unionView (b :: rest)).alter (dir ++ [n]) i := by
  have hdir := valid_of_unionView hd.ne_none
  have hp := valid_of_unionView (s := b :: rest) (p := dir ++ [n]) (by simp [hj])
  rw [unionView_cons, ht, layerOf_alter _ hp, layerOf_copyNode _ _ hdir]
  exact view_alter b.tree.layer_closed b.tree.layer_root (layers_closed rest) hd hj hij

/-- Copying up makes no stray whiteouts. -/
theorem Proper.copyNode {b : Branch α} (rest : Stack α) (hp : Proper b.tree.node) {dir : Path}
    (hdir : dir.all isValidname = true) :
    Proper (copyNode b.tree.node (unionView (b :: rest)) dir) := by
  have hout : ∀ p n, isValidname n = false →
      Kernel.copyNode b.tree.node (unionView (b :: rest)) dir (p ++ [n]) =
        b.tree.node (p ++ [n]) :=
    fun p n hn => if_neg (not_prefix_of_invalid hdir hn)
  refine ⟨fun p n h => ?_, fun p n x h => ?_, fun p n hn h => ?_⟩
  · by_cases habove : p ++ [n] <+: dir
    · exact .inl (List.all_eq_true.mp (isValidname_above hdir habove) n (by simp))
    · rw [Kernel.copyNode, if_neg habove] at h
      exact hp.names p n h
  · rw [hout p _ (not_isValidname_allocWhname n)] at h
    exact hp.reg p n x h
  · rw [hout p _ (not_isValidname_allocWhname n)] at h
    rw [Kernel.copyNode, hp.once p n hn h]
    split_ifs with habove
    · rw [Option.none_or]
      exact unionView_of_whiteout rest (isValidname_above hdir habove) h
    · rfl

/-- Neither does replacing a name. -/
theorem Proper.graftNode {N : Flat Text α} (hp : Proper N) {dir : Path} {n : Text}
    (hn : isValidname n = true) (hne : n ≠ []) (x : Option (Inode α)) (mark : α) :
    Proper (graftNode N dir n x mark) := by
  refine ⟨fun p m h => ?_, fun p m y h => ?_, fun p m hm h => ?_⟩
  · by_cases hself : p ++ [m] = dir ++ [n]
    · rw [List.singleton_inj.mp (List.append_inj_right' hself rfl)]
      exact .inl hn
    by_cases hmark : p ++ [m] = dir ++ [n] ++ [unionfsDirOpaque]
    · exact .inr (.inr (List.singleton_inj.mp (List.append_inj_right' hmark rfl)))
    by_cases hwhiteout : p ++ [m] = dir ++ [allocWhname n]
    · exact .inr (.inl ⟨n, hne, hn, List.singleton_inj.mp (List.append_inj_right' hwhiteout rfl)⟩)
    · simp only [Kernel.graftNode, hself, hmark, hwhiteout, false_and, if_false] at h
      split_ifs at h
      · exact absurd rfl h
      · exact hp.names p m h
  · have hself : p ++ [allocWhname m] ≠ dir ++ [n] := fun hself =>
      ne_of_isValidname hn (not_isValidname_allocWhname m)
        (List.singleton_inj.mp (List.append_inj_right' hself rfl)).symm
    rw [Kernel.graftNode, if_neg hself] at h
    split_ifs at h
    · rw [← Option.some.inj h]
      rfl
    · rw [← Option.some.inj h]
      rfl
    · exact hp.reg p m y h
  · have hcase : (Kernel.graftNode N dir n x mark (p ++ [allocWhname m])).isSome = _ :=
      isSome_graftNode_whiteout hn hm x mark
    rw [Option.isSome_iff_ne_none.mpr h] at hcase
    by_cases hbelow : dir ++ [n] <+: p ++ [m]
    · rw [if_pos hbelow, eq_comm, Bool.and_eq_true, decide_eq_true_iff] at hcase
      rw [Kernel.graftNode, if_pos hbelow, if_pos hcase.1]
      exact Option.isNone_iff_eq_none.mp hcase.2
    · rw [if_neg hbelow, eq_comm] at hcase
      have hwhiteout : p ++ [m] ≠ dir ++ [allocWhname n] := fun hwhiteout =>
        ne_of_isValidname hm (not_isValidname_allocWhname n)
          (List.singleton_inj.mp (List.append_inj_right' hwhiteout rfl))
      rw [Kernel.graftNode, if_neg hbelow, if_neg hwhiteout]
      exact hp.once p m hm (Option.isSome_iff_ne_none.mp hcase)

/-- Neither does changing an inode that no whiteout hides. -/
theorem Proper.alter {N : Flat Text α} (hp : Proper N) {dir : Path} {n : Text}
    (hn : isValidname n = true) {i : Inode α} (hwh : N (dir ++ [allocWhname n]) = none) :
    Proper (N.alter (dir ++ [n]) i) := by
  have hne : ∀ p m, p ++ [allocWhname m] ≠ dir ++ [n] := fun p m h =>
    ne_of_isValidname hn (not_isValidname_allocWhname m)
      (List.singleton_inj.mp (List.append_inj_right' h rfl)).symm
  refine ⟨fun p m h => ?_, fun p m y h => ?_, fun p m hm h => ?_⟩
  · by_cases hself : p ++ [m] = dir ++ [n]
    · rw [List.singleton_inj.mp (List.append_inj_right' hself rfl)]
      exact .inl hn
    · rw [Flat.alter, if_neg hself] at h
      exact hp.names p m h
  · rw [Flat.alter, if_neg (hne p m)] at h
    exact hp.reg p m y h
  · rw [Flat.alter, if_neg (hne p m)] at h
    by_cases hself : p ++ [m] = dir ++ [n]
    · have hsplit := List.append_inj' hself rfl
      rw [hsplit.1, List.singleton_inj.mp hsplit.2] at h
      exact absurd hwh h
    · rw [Flat.alter, if_neg hself]
      exact hp.once p m hm h

end Kernel
