import Backpack.Kernel.Vfs

/-!
# A union is a file system

A writable branch on read-only ones answers every request as the tree that it shows would, and
then shows the tree that there would be. The read-only branches stay what they were, and the
writable one stays one that unionfs may have written.
-/

namespace Kernel

open Shell Overlay
open UnionFs (Path)

variable {α : Type} {b : Branch α} {rest : Stack α} {dir : Path} {n : Text}

/-! ## What the kernel checks -/

/-- Looking a path up gives what the union has. -/
theorem look_live (hl : Live b rest) (mark : α) (p : Path) :
    (unionOps mark).look (b :: rest) p = treeOps.look (unionView (b :: rest)) p :=
  dentryOf_eq_walk (List.cons_ne_nil b rest) hl.whiteoutsReg p

/-- A name is free in the union when the lookup finds none. -/
theorem lookAbsent_live (hl : Live b rest) (mark : α) (dir : Path) (n : Text) :
    (unionOps mark).absent (b :: rest) dir n = treeOps.absent (unionView (b :: rest)) dir n := by
  rw [FileOps.absent, FileOps.absent, look_live hl]

/-- A name is in the union when the lookup finds it. -/
theorem lookPresent_live (hl : Live b rest) (mark : α) (dir : Path) (n : Text) :
    (unionOps mark).present (b :: rest) dir n = treeOps.present (unionView (b :: rest)) dir n := by
  rw [FileOps.present, FileOps.present, look_live hl]

/-- What holds where a name is free. -/
theorem of_absent {V : Flat Text α} (h : treeOps.absent V dir n = .ok ()) :
    n ≠ [] ∧ V.IsDirAt dir ∧ isValidname n = true ∧ V (dir ++ [n]) = none := by
  rw [FileOps.absent] at h
  split_ifs at h with hn
  cases hw : walk V [] (dir ++ [n]) with
  | error e => simp [treeOps, hw] at h
  | ok x =>
    obtain ⟨hd, hvalid⟩ := walk_isDirAt hw
    have hx := walk_eq hw
    cases x with
    | none => exact ⟨hn, hd, hvalid, hx.symm⟩
    | some i => simp [treeOps, hw] at h

/-- What holds where a name is taken. -/
theorem of_present {V : Flat Text α} {i : Inode α} (h : treeOps.present V dir n = .ok i) :
    n ≠ [] ∧ V.IsDirAt dir ∧ isValidname n = true ∧ V (dir ++ [n]) = some i := by
  rw [FileOps.present] at h
  split_ifs at h with hn
  cases hw : walk V [] (dir ++ [n]) with
  | error e => simp [treeOps, hw] at h
  | ok x =>
    obtain ⟨hd, hvalid⟩ := walk_isDirAt hw
    have hx := walk_eq hw
    cases x with
    | none => simp [treeOps, hw] at h
    | some j =>
      simp only [treeOps, hw, Except.ok.injEq] at h
      exact ⟨hn, hd, hvalid, by rw [← hx, h]⟩

/-! ## The two ways of changing the leftmost branch -/

/-- The outcome of a request in the union, beside that in the tree. -/
def Refines (rest : Stack α) : Except Errno (Stack α) → Except Errno (Flat Text α) → Prop
  | .ok s, .ok V => ∃ b, s = b :: rest ∧ Live b rest ∧ unionView s = V
  | .error e, .error e' => e = e'
  | _, _ => False

/-- A name replaced in the leftmost branch refines a name replaced in the union. -/
theorem refines_graft (hl : Live b rest) (hd : (unionView (b :: rest)).IsDirAt dir)
    (hn : isValidname n = true) (hne : n ≠ []) {x : Option (Inode α)} {mark : α}
    {r : Except Errno (Stack α)}
    (h : ∃ u : Tree α, r = .ok ({ b with tree := u } :: rest) ∧
      u.node = graftNode (copyNode b.tree.node (unionView (b :: rest)) dir) dir n x mark) :
    Refines rest r (.ok ((unionView (b :: rest)).set (dir ++ [n]) x)) := by
  have ⟨u, hr, hu⟩ := h
  have hpr := (hl.proper b List.mem_cons_self).copyNode rest
    (valid_of_unionView hd.ne_none)
  rw [hr]
  exact ⟨_, rfl, hl.withTree (hu ▸ hpr.graftNode hn hne x mark), unionView_graft hd hn hu⟩

/-- A changed inode of the leftmost branch refines a changed inode of the union. -/
theorem refines_alter (hl : Live b rest) (hd : (unionView (b :: rest)).IsDirAt dir)
    (hn : isValidname n = true) {i j : Inode α} (hj : unionView (b :: rest) (dir ++ [n]) = some j)
    (hij : i.isDir = j.isDir) {r : Except Errno (Stack α)}
    (h : ∃ u : Tree α, r = .ok ({ b with tree := u } :: rest) ∧
      u.node = (copyNode b.tree.node (unionView (b :: rest)) dir).alter (dir ++ [n]) i) :
    Refines rest r (.ok ((unionView (b :: rest)).alter (dir ++ [n]) i)) := by
  have ⟨u, hr, hu⟩ := h
  have hdir := valid_of_unionView hd.ne_none
  have hpr := (hl.proper b List.mem_cons_self).copyNode rest hdir
  have hwh : copyNode b.tree.node (unionView (b :: rest)) dir (dir ++ [allocWhname n]) = none := by
    rw [copyNode_child]
    by_contra hthere
    have hhidden := unionView_of_whiteout rest (p := dir) (n := n) (by simp [hdir, hn]) hthere
    rw [hj] at hhidden
    simp at hhidden
  rw [hr]
  exact ⟨_, rfl, hl.withTree (hu ▸ hpr.alter hn hwh), unionView_alter hd hj hij hu⟩

/-! ## Steps -/

/-- Requests for a free name need to agree on free names only. -/
theorem refines_absent (hl : Live b rest) {mark : α} {f : Except Errno (Stack α)}
    {g : Except Errno (Flat Text α)}
    (h : n ≠ [] → (unionView (b :: rest)).IsDirAt dir → isValidname n = true →
      unionView (b :: rest) (dir ++ [n]) = none → Refines rest f g) :
    Refines rest (((unionOps mark).absent (b :: rest) dir n).bind fun _ => f)
      ((treeOps.absent (unionView (b :: rest)) dir n).bind fun _ => g) := by
  rw [lookAbsent_live hl]
  cases hw : treeOps.absent (unionView (b :: rest)) dir n with
  | error e => rfl
  | ok _ =>
    have ⟨hne, hd, hvalid, hnone⟩ := of_absent hw
    exact h hne hd hvalid hnone

/-- Requests for a taken name need to agree on taken names only. -/
theorem refines_present (hl : Live b rest) {mark : α} {f : Inode α → Except Errno (Stack α)}
    {g : Inode α → Except Errno (Flat Text α)}
    (h : ∀ i, n ≠ [] → (unionView (b :: rest)).IsDirAt dir → isValidname n = true →
      unionView (b :: rest) (dir ++ [n]) = some i → Refines rest (f i) (g i)) :
    Refines rest (((unionOps mark).present (b :: rest) dir n).bind f)
      ((treeOps.present (unionView (b :: rest)) dir n).bind g) := by
  rw [lookPresent_live hl]
  cases hw : treeOps.present (unionView (b :: rest)) dir n with
  | error e => rfl
  | ok i =>
    have ⟨hne, hd, hvalid, hsome⟩ := of_present hw
    exact h i hne hd hvalid hsome

/-- A step of the union is one of the tree. Only the removal of a directory can be refused beyond
that, when branches to the right have whiteouts. -/
theorem step_live (hl : Live b rest) (mark : α) (op : Op α) :
    Refines rest ((unionOps mark).step (b :: rest) op) (treeOps.step (unionView (b :: rest)) op) ∨
      (∃ dir n, op = .rmdir dir n) ∧
        (unionOps mark).step (b :: rest) op = .error .ENOTEMPTY ∧ ¬ Plain rest := by
  cases op with
  | create dir n a =>
    exact .inl (refines_absent hl fun hne hd hn hV =>
      refines_graft hl hd hn hne (unionfsCreate_live hl hd hn hV a mark))
  | symlink dir n a =>
    exact .inl (refines_absent hl fun hne hd hn hV =>
      refines_graft hl hd hn hne (unionfsSymlink_live hl hd hn hV a mark))
  | mknod dir n a =>
    exact .inl (refines_absent hl fun hne hd hn hV =>
      refines_graft hl hd hn hne (unionfsMknod_live hl hd hn hV a mark))
  | mkdir dir n a =>
    exact .inl (refines_absent hl fun hne hd hn hV =>
      refines_graft hl hd hn hne (unionfsMkdir_live hl hd hn hV a mark))
  | unlink dir n =>
    refine .inl (refines_present hl fun i hne hd hn hV => ?_)
    cases hi : i.isDir with
    | true => rfl
    | false => exact refines_graft hl hd hn hne (unionfsUnlink_live hl hd hn hV hi mark)
  | rmdir dir n =>
    by_cases hp : ∃ i, i.isDir = true ∧ treeOps.present (unionView (b :: rest)) dir n = .ok i
    · have ⟨i, hi, hw⟩ := hp
      have ⟨hne, hd, hn, hV⟩ := of_present hw
      have hunion : (unionOps mark).step (b :: rest) (.rmdir dir n) =
          unionfsRmdir (b :: rest) dir n mark := by
        simp only [FileOps.step, lookPresent_live hl, hw, bind, Except.bind, if_pos hi]
        rfl
      have htree : treeOps.step (unionView (b :: rest)) (.rmdir dir n) =
          treeOps.rmdir (unionView (b :: rest)) dir n := by
        simp only [FileOps.step, hw, bind, Except.bind, if_pos hi]
      rw [hunion, htree]
      rcases unionfsRmdir_live hl hd hn hV hi mark with ⟨u, hr, hempty, hu⟩ | ⟨hr, hshown⟩
      · rw [show treeOps.rmdir (unionView (b :: rest)) dir n =
          .ok ((unionView (b :: rest)).set (dir ++ [n]) none) from if_pos hempty]
        exact .inl (refines_graft hl hd hn hne ⟨u, hr, hu⟩)
      · by_cases hempty : ∀ m, unionView (b :: rest) (dir ++ [n] ++ [m]) = none
        · refine .inr ⟨⟨dir, n, rfl⟩, hr, fun hp => ?_⟩
          have ⟨m, hm⟩ := hshown hp
          exact hm (hempty m)
        · rw [hr, show treeOps.rmdir (unionView (b :: rest)) dir n = .error .ENOTEMPTY from
            if_neg hempty]
          exact .inl rfl
    · refine .inl ?_
      simp only [FileOps.step, lookPresent_live hl, bind]
      cases hw : treeOps.present (unionView (b :: rest)) dir n with
      | error e => rfl
      | ok i =>
        have hi : ¬ i.isDir = true := fun hi => hp ⟨i, hi, hw⟩
        simp only [Except.bind, if_neg hi]
        rfl
  | setattr dir n a =>
    refine .inl (refines_present hl fun i hne hd hn hV => ?_)
    have hi := isDir_withAttr i a
    exact refines_alter hl hd hn hV hi (unionfsSetattr_live hl hd hn hV hi)
  | write dir n a =>
    refine .inl (refines_present hl fun i hne hd hn hV => ?_)
    cases i with
    | dir a' => rfl
    | other a' => rfl
    | reg a' =>
      exact refines_alter (i := .reg a) hl hd hn hV rfl (unionfsWrite_live hl hd hn hV rfl a)

/-! ## Runs -/

/-- The file below an empty writable branch. -/
theorem oneFile_live : Live ⟨Tree.empty 0, true, false⟩ [⟨oneFile, false, true⟩] where
  mayWrite := rfl
  rdonly := rfl
  others c hc := by
    rw [List.mem_singleton.mp hc]
    exact ⟨rfl, rfl⟩
  proper c hc := by
    rcases List.mem_cons.mp hc with h | h
    · rw [h]
      exact Proper.of_valid fun p n h => by simp [Tree.empty] at h
    · rw [List.mem_singleton.mp h]
      exact Proper.of_valid oneFile_valid

theorem oneFile_plain : Plain [⟨oneFile, false, true⟩] := by
  intro c hc q m
  rw [List.mem_singleton.mp hc]
  by_contra h
  have hvalid := oneFile_valid q _ h
  simp [not_isValidname_allocWhname] at hvalid

end Kernel
