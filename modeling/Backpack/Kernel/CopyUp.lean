import Backpack.Kernel.Deleting

/-!
# Copying up

An entry that changes is first copied to the leftmost branch, with the directories above it,
when it was found in a branch that cannot be written.
-/

namespace Kernel

open Shell Overlay
open UnionFs (Path)

variable {α : Type} {b : Branch α} {rest : Stack α} {dir : Path} {n : Text}

/-- Copying up to a read-only branch fails. -/
theorem copyupDentry_succ (hl : Live b rest) (d : Dentry α) (i k : Nat) :
    copyupDentry (b :: rest) d dir n i (k + 1) = .error .EROFS := by
  rw [copyupDentry, show isRobranchSuper (b :: rest) (k + 1) = .error .EROFS from
    isRobranchSuper_succ hl b.tree k]
  rfl

/-- So the loop tries branch after branch, down to the leftmost. -/
theorem copyupLoop_succ (hl : Live b rest) (d : Dentry α) (i : Nat) (err : Errno) (k : Nat) :
    ∃ err', copyupLoop (b :: rest) d dir n i err (k + 1) =
      copyupLoop (b :: rest) d dir n i err' 1 := by
  induction k generalizing err with
  | zero => exact ⟨err, rfl⟩
  | succ k ih =>
    rw [copyupLoop, copyupDentry_succ hl]
    exact ih .EROFS

/-- The copy has what the entry had, and the branch has the directories above it. -/
theorem copyupLoop_live (hl : Live b rest) {d : Dentry α} {i : Nat} {x : Inode α}
    (h : Present b rest dir n d i x) (hi : i ≠ 0) (err : Errno) :
    ∃ t, copyupLoop (b :: rest) d dir n i err i = .ok ({ b with tree := t } :: rest, 0) ∧
      t.node = fun q => if q = dir ++ [n] then some x
        else copyNode b.tree.node (unionView (b :: rest)) dir q := by
  have ⟨k, hk⟩ := Nat.exists_eq_succ_of_ne_zero hi
  subst hk
  have ⟨t, hmade, htree⟩ := createParents_zero hl h.isDir
  have ⟨t', hwith, htree', hdirN⟩ :=
    withParents_zero hl h.isDir (d := d) fun hzero => absurd (h.zero.mp hzero) hi
  have hN : b.tree.node (dir ++ [n]) = none := by
    by_contra hthere
    exact hi (h.first.mpr hthere)
  have hdir : t.node.IsDirAt dir := by
    rw [htree, ← htree']
    exact hdirN
  have hnone : t.node (dir ++ [n]) = none := by rw [htree, copyNode_child, hN]
  have ⟨err', hloop⟩ := @copyupLoop_succ α b rest dir n hl d (k + 1) err k
  refine ⟨t.insert dir n x hdir hnone, ?_, ?_⟩
  · rw [hloop, copyupLoop, copyupDentry,
      show isRobranchSuper (b :: rest) 0 = .ok () from isRobranchSuper_zero hl b.tree]
    simp only [bind, Except.bind, hmade, h.hiddenAt, onTree_zero hl, Tree.add_ok hdir hnone]
    rfl
  · funext q
    show (if q = dir ++ [n] then some x else t.node q) = _
    rw [htree]

/-- The last step: the entry of the leftmost branch is changed. -/
theorem notifyChange_live (hl : Live b rest) {t : Tree α} {x i : Inode α}
    (hx : t.node (dir ++ [n]) = some x) (hi : i.isDir = x.isDir) :
    ∃ u, Stack.onTree ({ b with tree := t } :: rest) 0
        (fun t => t.notifyChange (dir ++ [n]) i) = .ok ({ b with tree := u } :: rest) ∧
      u.node = t.node.alter (dir ++ [n]) i := by
  have hkind : (t.node (dir ++ [n])).map Inode.isDir = some i.isDir := by rw [hx, hi]; rfl
  refine ⟨t.update (dir ++ [n]) i hkind, ?_, rfl⟩
  rw [onTree_zero hl, Tree.notifyChange, dif_pos hkind]
  rfl

/-- What a change of an entry comes to, wherever it was found. -/
theorem change_live (hl : Live b rest) (hd : (unionView (b :: rest)).IsDirAt dir)
    (hn : isValidname n = true) {x : Inode α} (hV : unionView (b :: rest) (dir ++ [n]) = some x)
    {i : Inode α} (hi : i.isDir = x.isDir) (err : Errno) :
    ∃ d k t u, dentryOf (b :: rest) (dir ++ [n]) = .ok d ∧ d.bstart = some k ∧
      (k = 0 ∧ t = b.tree ∨ k ≠ 0 ∧ copyupLoop (b :: rest) d dir n k err k =
        .ok ({ b with tree := t } :: rest, 0)) ∧
      Stack.onTree ({ b with tree := t } :: rest) 0 (fun t => t.notifyChange (dir ++ [n]) i) =
        .ok ({ b with tree := u } :: rest) ∧
      u.node = (copyNode b.tree.node (unionView (b :: rest)) dir).alter (dir ++ [n]) i := by
  have ⟨_, _, _, d, k, _, _, _, hdentry, hpresent, _⟩ := present_live hl hd hn hV
  by_cases hk : k = 0
  · subst hk
    have hx : b.tree.node (dir ++ [n]) = some x := (hpresent.hidden 0 _ hpresent.hiddenAt).1.symm
    have hdirN : b.tree.node.IsDirAt dir := b.tree.closed dir n (by rw [hx]; simp)
    have ⟨u, hnotify, hnode⟩ := notifyChange_live hl hx hi
    refine ⟨d, 0, b.tree, u, hdentry, hpresent.bstart, .inl ⟨rfl, rfl⟩, hnotify, ?_⟩
    rw [hnode, copyNode_of_isDirAt b.tree.closed hdirN]
  · have ⟨t, hloop, hcopied⟩ := copyupLoop_live hl hpresent hk err
    have hx : t.node (dir ++ [n]) = some x := by rw [hcopied]; exact if_pos rfl
    have ⟨u, hnotify, hnode⟩ := notifyChange_live hl hx hi
    refine ⟨d, k, t, u, hdentry, hpresent.bstart, .inr ⟨hk, hloop⟩, hnotify, ?_⟩
    rw [hnode, hcopied]
    funext q
    by_cases hq : q = dir ++ [n]
    · simp [Flat.alter, hq]
    · simp [Flat.alter, hq]

/-- `unionfs_setattr` -/
theorem unionfsSetattr_live (hl : Live b rest) (hd : (unionView (b :: rest)).IsDirAt dir)
    (hn : isValidname n = true) {x : Inode α} (hV : unionView (b :: rest) (dir ++ [n]) = some x)
    {i : Inode α} (hi : i.isDir = x.isDir) :
    ∃ u, unionfsSetattr (b :: rest) dir n i = .ok ({ b with tree := u } :: rest) ∧
      u.node = (copyNode b.tree.node (unionView (b :: rest)) dir).alter (dir ++ [n]) i := by
  have ⟨d, k, t, u, hdentry, hbstart, hcases, hnotify, hnode⟩ := change_live hl hd hn hV hi .EROFS
  refine ⟨u, ?_, hnode⟩
  rw [unionfsSetattr, withDentry_eq hdentry hbstart]
  rcases hcases with ⟨hk, ht⟩ | ⟨hk, ht⟩
  · subst hk ht
    simp only [show isRobranch (b :: rest) 0 = .ok () from isRobranch_zero hl b.tree, bind,
      Except.bind]
    exact hnotify
  · have ⟨j, hj⟩ := Nat.exists_eq_succ_of_ne_zero hk
    subst hj
    simp only [show isRobranch (b :: rest) (j + 1) = .error .EROFS from
      isRobranch_succ hl b.tree j, bind, Except.bind]
    rw [if_neg hk, ht]
    exact hnotify

/-- A write to a file. -/
theorem unionfsWrite_live (hl : Live b rest) (hd : (unionView (b :: rest)).IsDirAt dir)
    (hn : isValidname n = true) {x : Inode α} (hV : unionView (b :: rest) (dir ++ [n]) = some x)
    (hx : x.isDir = false) (a : α) :
    ∃ u, unionfsWrite (b :: rest) dir n a = .ok ({ b with tree := u } :: rest) ∧
      u.node = (copyNode b.tree.node (unionView (b :: rest)) dir).alter (dir ++ [n]) (.reg a) := by
  have ⟨d, k, t, u, hdentry, hbstart, hcases, hnotify, hnode⟩ :=
    change_live hl hd hn hV (i := .reg a) hx.symm .EROFS
  refine ⟨u, ?_, hnode⟩
  rw [unionfsWrite, withDentry_eq hdentry hbstart]
  rcases hcases with ⟨hk, ht⟩ | ⟨hk, ht⟩
  · subst hk ht
    simp only [show isRobranch (b :: rest) 0 = .ok () from isRobranch_zero hl b.tree, bind,
      Except.bind]
    exact hnotify
  · have ⟨j, hj⟩ := Nat.exists_eq_succ_of_ne_zero hk
    subst hj
    simp only [show isRobranch (b :: rest) (j + 1) = .error .EROFS from
      isRobranch_succ hl b.tree j, bind, Except.bind]
    rw [if_neg hk, ht]
    exact hnotify

end Kernel
