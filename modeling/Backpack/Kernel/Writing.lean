import Backpack.Kernel.Changes

/-!
# New entries in a union

What the loops over the branches come to when only the leftmost branch can be written: the
others answer `EROFS`, the directories above the entry are made in the leftmost branch, and the
entry is made there.
-/

namespace Kernel

open Shell Overlay
open UnionFs (Path whPrefix)

variable {α : Type} {b : Branch α} {rest : Stack α}

/-! ## One branch -/

/-- Whiteouts are regular files in all branches. -/
theorem Live.whiteoutsReg (hl : Live b rest) : WhiteoutsReg (b :: rest) := by
  intro i p n x h
  have ⟨c, hc, hx⟩ := Option.bind_eq_some_iff.mp h
  exact (hl.proper c (List.mem_of_getElem? hc)).reg p n x hx

/-- The same union with another tree in its leftmost branch. -/
theorem Live.withTree (hl : Live b rest) {t : Tree α} (ht : Proper t.node) :
    Live { b with tree := t } rest :=
  ⟨hl.mayWrite, hl.rdonly, hl.others, fun c hc => (List.mem_cons.mp hc).elim (fun h => h ▸ ht)
    fun h => hl.proper c (List.mem_cons_of_mem b h)⟩

/-- The leftmost branch can be written. -/
theorem isRobranchSuper_zero (hl : Live b rest) (t : Tree α) :
    isRobranchSuper ({ b with tree := t } :: rest) 0 = .ok () := by
  simp [isRobranchSuper, hl.mayWrite]

/-- The others cannot. -/
theorem isRobranchSuper_succ (hl : Live b rest) (t : Tree α) (i : Nat) :
    isRobranchSuper ({ b with tree := t } :: rest) (i + 1) = .error .EROFS := by
  have h : (rest[i]?.any Branch.mayWrite) = false := by
    cases hc : rest[i]? with
    | none => rfl
    | some c => simpa using (hl.others c (List.mem_of_getElem? hc)).1
  simp [isRobranchSuper, h]

theorem isRobranch_zero (hl : Live b rest) (t : Tree α) :
    isRobranch ({ b with tree := t } :: rest) 0 = .ok () := by
  simp [isRobranch, hl.mayWrite, hl.rdonly]

theorem isRobranch_succ (hl : Live b rest) (t : Tree α) (i : Nat) :
    isRobranch ({ b with tree := t } :: rest) (i + 1) = .error .EROFS := by
  have h : (rest[i]?.any fun c => c.mayWrite && !c.rdonly) = false := by
    cases hc : rest[i]? with
    | none => rfl
    | some c => simp [(hl.others c (List.mem_of_getElem? hc)).1]
  simp [isRobranch, h]

theorem onTree_zero (hl : Live b rest) (t : Tree α) (f : Tree α → Except Errno (Tree α)) :
    Stack.onTree ({ b with tree := t } :: rest) 0 f =
      (f t).map fun u => { b with tree := u } :: rest := by
  simp only [Stack.onTree, List.getElem?_cons_zero, hl.rdonly]
  cases f t <;> rfl

/-- Nothing is done in a read-only branch. -/
theorem onTree_succ (hl : Live b rest) (t : Tree α) (i : Nat) (f : Tree α → Except Errno (Tree α))
    (s' : Stack α) : Stack.onTree ({ b with tree := t } :: rest) (i + 1) f ≠ .ok s' := by
  unfold Stack.onTree
  rw [List.getElem?_cons_succ]
  cases h : rest[i]? with
  | none => simp
  | some c => simp [(hl.others c (List.mem_of_getElem? h)).2]

theorem node_zero (t : Tree α) (p : Path) :
    Stack.node ({ b with tree := t } :: rest) 0 p = t.node p := rfl

/-! ## The directories above an entry -/

/-- A directory is given by its attributes. -/
theorem dir_attrOf {i : Inode α} (h : i.isDir = true) : Inode.dir (attrOf i) = i := by
  cases i with
  | dir a => rfl
  | reg a => simp [Inode.isDir] at h
  | other a => simp [Inode.isDir] at h

/-- Above a directory of the union there are directories. -/
theorem isDirAt_above {s : Stack α} (hs : s ≠ []) {p q : Path} (h : p <+: q)
    (hv : (unionView s).IsDirAt q) : (unionView s).IsDirAt p := by
  have ⟨r, hr⟩ := h
  by_cases hnil : r = []
  · rw [hnil, List.append_nil] at hr
    exact hr ▸ hv
  · exact (unionView_closed hs).isDirAt_append hnil (hr ▸ hv).ne_none

/-- A directory of the union that the branch does not have is made as the union shows it. -/
theorem makeParents_zero (hl : Live b rest) {t : Tree α}
    (ht : ∀ q x, q.all isValidname = true → t.node q = some x →
      unionView (b :: rest) q = some x)
    {parent r : Path} (hp : t.node.IsDirAt parent)
    (hv : (unionView (b :: rest)).IsDirAt (parent ++ r)) :
    ∃ t', makeParents (b :: rest) 0 ({ b with tree := t } :: rest) parent r =
        .ok ({ b with tree := t' } :: rest) ∧
      t'.node = fun q => if parent <+: q ∧ q <+: parent ++ r then
        (t.node q).or (unionView (b :: rest) q) else t.node q := by
  induction r generalizing t parent with
  | nil =>
    refine ⟨t, rfl, ?_⟩
    funext q
    split_ifs with h
    · have heq : q = parent := h.1.eq_of_length_le (by simpa using h.2.length_le) |>.symm
      have ⟨x, hx, _⟩ := Flat.isDirAt_iff.mp hp
      rw [heq, hx]
      rfl
    · rfl
  | cons n r ih =>
    have hpre : parent ++ [n] <+: parent ++ n :: r := by simp
    have hvn := isDirAt_above (List.cons_ne_nil b rest) hpre hv
    have hvalid := valid_of_unionView hvn.ne_none
    have ⟨x, hx, hxd⟩ := Flat.isDirAt_iff.mp hvn
    have hv' : (unionView (b :: rest)).IsDirAt (parent ++ [n] ++ r) := by simpa using hv
    -- which paths are between `parent` and the end, and which from `parent/n` on
    have hbetween : ∀ q, parent <+: q ∧ q <+: parent ++ n :: r ↔
        q = parent ∨ parent ++ [n] <+: q ∧ q <+: parent ++ [n] ++ r := by
      intro q
      constructor
      · intro ⟨⟨u, hu⟩, hwithin⟩
        subst hu
        cases u with
        | nil => simp
        | cons m u =>
          rw [List.prefix_append_right_inj, List.cons_prefix_cons] at hwithin
          right
          rw [hwithin.1]
          simp [List.prefix_append_right_inj, List.cons_prefix_cons, hwithin.2]
      · intro h
        rcases h with h | h
        · subst h
          simp
        · exact ⟨(List.prefix_append parent [n]).trans h.1, by simpa using h.2⟩
    have hparent : (t.node parent).or (unionView (b :: rest) parent) = t.node parent := by
      have ⟨y, hy, _⟩ := Flat.isDirAt_iff.mp hp
      rw [hy]
      rfl
    cases hn : t.node (parent ++ [n]) with
    | some y =>
      have hy : y = x := by
        have hview := ht _ y hvalid hn
        rw [hx] at hview
        exact (Option.some.inj hview).symm
      have hpn : t.node.IsDirAt (parent ++ [n]) := by simp [Flat.IsDirAt, hn, hy, hxd]
      have ⟨t', hmade, hnode⟩ := ih ht hpn hv'
      refine ⟨t', ?_, ?_⟩
      · rw [makeParents, node_zero, hn]
        exact hmade
      · rw [hnode]
        funext q
        simp only [hbetween]
        by_cases hq : q = parent
        · subst hq
          simp [hparent]
        · simp [hq]
    | none =>
      -- made here, and the rest in it
      have hadd := Tree.add_ok hp hn x
      set t₁ := t.insert parent n x hp hn with ht₁
      have hnode : ∀ q, t₁.node q = if q = parent ++ [n] then some x else t.node q := fun q => rfl
      have hbelow : ∀ q y, q.all isValidname = true → t₁.node q = some y →
          unionView (b :: rest) q = some y := by
        intro q y hq hy
        rw [hnode] at hy
        split_ifs at hy with h
        · rw [h, hx, hy]
        · exact ht q y hq hy
      have hpn : t₁.node.IsDirAt (parent ++ [n]) := by simp [Flat.IsDirAt, hnode, hxd]
      have ⟨t', hmade, hnode'⟩ := ih hbelow hpn hv'
      refine ⟨t', ?_, ?_⟩
      · rw [makeParents, node_zero, hn,
          inodeOf_eq_unionView (List.cons_ne_nil b rest) hl.whiteoutsReg, hx]
        simp only [Option.isSome_none, Bool.false_eq_true, if_false, onTree_zero hl,
          dir_attrOf hxd, hadd]
        exact hmade
      · rw [hnode']
        funext q
        simp only [hbetween, hnode]
        by_cases hq : q = parent ++ [n]
        · subst hq
          simp [hx, hn]
        · by_cases hparentq : q = parent
          · subst hparentq
            simp [hparent, hq]
          · simp [hq, hparentq]

/-- What is found by a search, or what is taken instead. -/
theorem find?_getD {β : Type} {p : β → Bool} {l : List β} {d : β} {P : β → Prop} (hd : P d)
    (h : ∀ a ∈ l, p a = true → P a) : P ((l.find? p).getD d) := by
  cases hf : l.find? p with
  | none => exact hd
  | some a => exact h a (List.mem_of_find?_eq_some hf) (List.find?_some hf)

/-- `create_parents` in the leftmost branch. -/
theorem createParents_zero (hl : Live b rest) {dir : Path}
    (hd : (unionView (b :: rest)).IsDirAt dir) :
    ∃ t, createParents (b :: rest) dir 0 = .ok ({ b with tree := t } :: rest) ∧
      t.node = copyNode b.tree.node (unionView (b :: rest)) dir := by
  set top := nearestParent (b :: rest) 0 dir with htop
  have hs : b :: rest ≠ [] := List.cons_ne_nil b rest
  have hpr := hl.proper b List.mem_cons_self
  -- the nearest directory with a hidden dentry is one that the branch has
  have key : top <+: dir ∧ b.tree.node.IsDirAt top := by
    rw [htop, nearestParent]
    refine find?_getD (P := fun q => q <+: dir ∧ b.tree.node.IsDirAt q)
      ⟨List.nil_prefix, b.tree.root⟩ ?_
    · intro q hmem hhidden
      have hq : q <+: dir := List.mem_inits q dir |>.mp (List.mem_reverse.mp hmem)
      obtain ⟨d, c, e, hdentry, hdird, _⟩ :=
        dentryOf_dir hs hl.whiteoutsReg (isDirAt_above hs hq hd)
      rw [hdentry] at hhidden
      obtain ⟨x, hx⟩ := Option.isSome_iff_exists.mp hhidden
      have hle := hdird.hidden 0 x hx
      have hzero : c = 0 := by omega
      obtain ⟨y, hbranch, hisdir, _⟩ := hdird.first
      have hy := (hdird.hidden c _ hbranch).2.2.2.1
      rw [hzero] at hy
      have hnode : b.tree.node q = some y := hy.symm
      refine ⟨hq, ?_⟩
      rw [Flat.IsDirAt, hnode]
      exact hisdir
  obtain ⟨r, hr⟩ := key.1
  have hv : (unionView (b :: rest)).IsDirAt (top ++ r) := hr ▸ hd
  obtain ⟨t, hmade, hnode⟩ := makeParents_zero hl (t := b.tree)
    (fun q x hq hx => unionView_of_node rest hpr hq hx) key.2 hv
  refine ⟨t, ?_, ?_⟩
  · have hrob := isRobranchSuper_zero hl b.tree
    have hdrop : dir.drop top.length = r := by rw [← hr, List.drop_left]
    rw [createParents, show isRobranchSuper (b :: rest) 0 = .ok () from hrob]
    show makeParents (b :: rest) 0 (b :: rest) top (dir.drop top.length) = _
    rw [hdrop]
    exact hmade
  · rw [hnode, hr]
    funext q
    rw [copyNode]
    by_cases hq : q <+: dir
    · by_cases htopq : top <+: q
      · simp [hq, htopq]
      · -- above `top` the branch has all directories
        have hqtop : q <+: top := (List.prefix_or_prefix_of_prefix hq key.1).resolve_right htopq
        have hsome : b.tree.node q ≠ none := by
          obtain ⟨u, hu⟩ := hqtop
          by_cases hnil : u = []
          · rw [hnil, List.append_nil] at hu
            exact hu ▸ key.2.ne_none
          · exact (b.tree.closed.isDirAt_append hnil (hu ▸ key.2.ne_none)).ne_none
        obtain ⟨x, hx⟩ := Option.ne_none_iff_exists'.mp hsome
        simp [hq, htopq, hx]
    · simp [hq]

/-- Parents are not made in a read-only branch. -/
theorem createParents_succ (hl : Live b rest) (t : Tree α) (dir : Path) (i : Nat) :
    createParents ({ b with tree := t } :: rest) dir (i + 1) = .error .EROFS := by
  rw [createParents, isRobranchSuper_succ hl]
  rfl

/-- The leftmost branch is the first to be found where it has the entry. -/
theorem found_zero (hl : Live b rest) {dir : Path} {d : Dentry α} {e : Nat}
    (hd : IsDirDentry (b :: rest) dir d 0 e) (hdir : dir.all isValidname = true) {n : Text}
    (hn : isValidname n = true) (hN : b.tree.node (dir ++ [n]) ≠ none) :
    (found n (Stack.layerAt (b :: rest) dir) (d.dirs (b :: rest))).head? = some 0 := by
  have hwh : b.tree.node (dir ++ [allocWhname n]) = none := by
    by_contra hthere
    exact hN ((hl.proper b List.mem_cons_self).once dir n hn hthere)
  have hhead := hd.dirs_head
  cases hdirs : d.dirs (b :: rest) with
  | nil => simp [hdirs] at hhead
  | cons c r =>
    rw [hdirs, List.head?_cons, Option.some.injEq] at hhead
    have hwhiteout : Stack.node (b :: rest) 0 (dir ++ [allocWhname n]) = none := hwh
    have hnode : Stack.node (b :: rest) 0 (dir ++ [n]) ≠ none := hN
    rw [hhead, found_layerAt hdir hn, hwhiteout, if_neg (by simp), if_neg hnode]
    split_ifs <;> rfl

/-- A directory that the leftmost branch has is first in its dentry. -/
theorem bstart_eq_zero (hl : Live b rest) {dir p : Path} {d : Dentry α} {e : Nat}
    (hd : IsDirDentry (b :: rest) dir d 0 e) (hdir : dir.all isValidname = true)
    (hp : p.all isValidname = true) (hN : b.tree.node.IsDirAt (dir ++ p)) {d' : Dentry α}
    (h : pathLookup (b :: rest) dir d p = .ok d') : d'.bstart = some 0 := by
  induction p generalizing dir d e with
  | nil =>
    rw [pathLookup, Except.ok.injEq] at h
    exact h ▸ hd.bstart
  | cons n p ih =>
    rw [List.all_cons, Bool.and_eq_true] at hp
    have hNn : b.tree.node.IsDirAt (dir ++ [n]) := by
      by_cases hnil : p = []
      · exact hnil ▸ hN
      · exact b.tree.closed.isDirAt_append hnil (by simpa using hN.ne_none)
    have hfound := found_zero hl hd hdir hp.1 hNn.ne_none
    obtain ⟨child, hlook, hchild⟩ := unionfsLookupBackend_spec hl.whiteoutsReg hd hdir hp.1
    rw [pathLookup_cons hd, hlook] at h
    rcases hchild with ⟨c, e', hle, hc, hdirs⟩ | ⟨c, x, _, _, hfile, hnode, hone⟩ | ⟨_, hnone⟩
    · have hhead := hc.dirs_head
      rw [hdirs, hfound, Option.some.injEq] at hhead
      subst hhead
      exact ih hc (by simp [hdir, hp.1]) hp.2 (by simpa using hN) h
    · rw [hone, List.head?_cons, Option.some.injEq] at hfound
      rw [hfound] at hnode
      have hx : b.tree.node (dir ++ [n]) = some x := hnode
      rw [Flat.IsDirAt, hx] at hNn
      exact absurd hNn (by simp [hfile])
    · rw [hnone] at hfound
      simp at hfound

/-- The dentry of a directory of the union, and what the leftmost branch has of it. -/
theorem dentryOf_live (hl : Live b rest) {dir : Path}
    (hd : (unionView (b :: rest)).IsDirAt dir) :
    ∃ d c e, dentryOf (b :: rest) dir = .ok d ∧ IsDirDentry (b :: rest) dir d c e ∧
      (∀ r, d.view (b :: rest) dir r = unionView (b :: rest) (dir ++ r)) ∧
      (∀ n, dentryOf (b :: rest) (dir ++ [n]) = unionfsLookupBackend (b :: rest) d dir n) ∧
      (c = 0 ↔ b.tree.node.IsDirAt dir) := by
  have hs : b :: rest ≠ [] := List.cons_ne_nil b rest
  have ⟨d, c, e, hdentry, hdird, hview, hchild⟩ := dentryOf_dir hs hl.whiteoutsReg hd
  refine ⟨d, c, e, hdentry, hdird, hview, hchild, fun hc => ?_, fun hN => ?_⟩
  · have ⟨x, hbranch, hisdir, _⟩ := hdird.first
    have hy := (hdird.hidden c _ hbranch).2.2.2.1
    rw [hc] at hy
    have hnode : b.tree.node dir = some x := hy.symm
    rw [Flat.IsDirAt, hnode]
    exact hisdir
  · have hbstart := bstart_eq_zero hl (rootDentry_isDirDentry hs) rfl
      (valid_of_unionView hd.ne_none) (by simpa using hN) hdentry
    rw [hdird.bstart, Option.some.injEq] at hbstart
    exact hbstart

/-! ## The loops -/

/-- Where the branch has the name, no parent has to be made. -/
theorem withParents_of_hidden {s : Stack α} {d : Dentry α} {i : Nat}
    (h : (d.hidden i).isSome = true) (dir : Path) : withParents s d dir i = .ok s :=
  if_pos h

/-- Elsewhere the parents are made first. -/
theorem withParents_of_not_hidden {s : Stack α} {d : Dentry α} {i : Nat}
    (h : ¬ (d.hidden i).isSome = true) (dir : Path) :
    withParents s d dir i = createParents s dir i :=
  if_neg h

/-- A branch that cannot be written is passed over. -/
theorem makeLoop_succ (hl : Live b rest) (t : Tree α) (d : Dentry α) (dir : Path) (n : Text)
    (x : Inode α) (keepErr : Bool) (err : Errno) (k : Nat) :
    ∃ err', makeLoop ({ b with tree := t } :: rest) d dir n x keepErr err (k + 1) =
      makeLoop ({ b with tree := t } :: rest) d dir n x keepErr err' 1 := by
  induction k generalizing err with
  | zero => exact ⟨err, rfl⟩
  | succ k ih =>
    rw [makeLoop]
    by_cases h : (d.hidden (k + 1)).isSome = true
    · rw [withParents_of_hidden h]
      simp only [isRobranchSuper_succ hl]
      exact ih _
    · rw [withParents_of_not_hidden h, createParents_succ hl]
      exact ih _

/-- The loop makes the name in the leftmost branch. -/
theorem makeLoop_one (hl : Live b rest) {s : Stack α} {d : Dentry α} {dir : Path} {t u : Tree α}
    (hs : withParents s d dir 0 = .ok ({ b with tree := t } :: rest)) {n : Text} {x : Inode α}
    (hu : t.add dir n x = .ok u) (keepErr : Bool) (err : Errno) :
    makeLoop s d dir n x keepErr err 1 = .ok ({ b with tree := u } :: rest, 0) := by
  rw [makeLoop, hs]
  simp only [isRobranchSuper_zero hl, onTree_zero hl, hu]
  rfl

/-! ## New entries -/

/-- A name that the union does not show: its negative dentry, and that the leftmost branch has
nothing of it. -/
structure Absent (b : Branch α) (rest : Stack α) (dir : Path) (n : Text) (d : Dentry α) (c : Nat) :
    Prop where
  isDir : (unionView (b :: rest)).IsDirAt dir
  dentry : dentryOf (b :: rest) (dir ++ [n]) = .ok d
  neg : IsNegDentry (b :: rest) (dir ++ [n]) d c
  first : c = 0 ↔ b.tree.node.IsDirAt dir
  node : b.tree.node (dir ++ [n]) = none

/-- A name the union does not have gives a negative dentry. -/
theorem absent_live (hl : Live b rest) {dir : Path} (hd : (unionView (b :: rest)).IsDirAt dir)
    {n : Text} (hn : isValidname n = true) (hV : unionView (b :: rest) (dir ++ [n]) = none) :
    ∃ d c, Absent b rest dir n d c := by
  have ⟨d, c, e, _, hdird, hview, hchild, hfirst⟩ := dentryOf_live hl hd
  have hdir := valid_of_unionView hd.ne_none
  have ⟨d', hlook, hcases⟩ := dentryOf_child hl.whiteoutsReg hdird hview hdir hn
  have hnode : b.tree.node (dir ++ [n]) = none := by
    by_contra h
    have ⟨x, hx⟩ := Option.ne_none_iff_exists'.mp h
    have hview' := unionView_of_node rest (hl.proper b List.mem_cons_self)
      (by simp [hdir, hn]) hx
    rw [hV] at hview'
    simp at hview'
  rcases hcases with ⟨b', e', _, _, _, h, _⟩ | ⟨b', x, _, _, _, h, _, _⟩ | ⟨h, _, _⟩
  · exact absurd hV h.ne_none
  · rw [hV] at h
    simp at h
  · exact ⟨d', c, hd, by rw [hchild, hlook], h, hfirst, hnode⟩

/-- A directory that the branch does not have has no whiteouts there. -/
theorem whiteout_of_pos {dir : Path} {n : Text} {d : Dentry α} {c : Nat}
    (h : Absent b rest dir n d c) (hc : c ≠ 0) (m : Text) : b.tree.node (dir ++ [m]) = none :=
  b.tree.closed.none_append (List.cons_ne_nil m []) fun hN => hc (h.first.mpr hN)

/-- Where a new entry goes: the leftmost branch with the directories above the entry. -/
theorem withParents_zero (hl : Live b rest) {dir : Path}
    (hd : (unionView (b :: rest)).IsDirAt dir) {d : Dentry α}
    (h : (d.hidden 0).isSome = true → b.tree.node.IsDirAt dir) :
    ∃ t, withParents (b :: rest) d dir 0 = .ok ({ b with tree := t } :: rest) ∧
      t.node = copyNode b.tree.node (unionView (b :: rest)) dir ∧ t.node.IsDirAt dir := by
  have hisdir : (copyNode b.tree.node (unionView (b :: rest)) dir).IsDirAt dir := by
    rw [Flat.IsDirAt, copyNode, if_pos (List.prefix_refl dir)]
    cases hN : b.tree.node dir with
    | none => exact hd
    | some x =>
      have hview := unionView_of_node rest (hl.proper b List.mem_cons_self)
        (valid_of_unionView hd.ne_none) hN
      rw [Flat.IsDirAt, hview] at hd
      exact hd
  by_cases hhidden : (d.hidden 0).isSome = true
  · refine ⟨b.tree, withParents_of_hidden hhidden dir, ?_, h hhidden⟩
    rw [copyNode_of_isDirAt b.tree.closed (h hhidden)]
  · obtain ⟨t, hmade, hnode⟩ := createParents_zero hl hd
    exact ⟨t, (withParents_of_not_hidden hhidden dir).trans hmade, hnode,
      by rw [hnode]; exact hisdir⟩

/-- A whiteout in the leftmost branch lies in a directory of that branch. -/
theorem Absent.hidden_zero {dir : Path} {n : Text} {d : Dentry α} {c : Nat}
    (h : Absent b rest dir n d c) (hhidden : (d.hidden 0).isSome = true) :
    b.tree.node.IsDirAt dir := by
  rw [h.neg.hidden] at hhidden
  split_ifs at hhidden with hc
  · exact h.first.mp hc.symm
  · simp at hhidden

/-- The loop from the right makes the entry in the leftmost branch, when no whiteout is there. -/
theorem makeLoop_live (hl : Live b rest) {dir : Path} {n : Text} {d : Dentry α} {c : Nat}
    (h : Absent b rest dir n d c) (hwh : b.tree.node (dir ++ [allocWhname n]) = none)
    (x : Inode α) (keepErr : Bool) (err : Errno) (k : Nat) :
    ∃ u, makeLoop (b :: rest) d dir n x keepErr err (k + 1) =
        .ok ({ b with tree := u } :: rest, 0) ∧
      u.node = fun q => if q = dir ++ [n] then some x
        else if q = dir ++ [allocWhname n] then none
        else copyNode b.tree.node (unionView (b :: rest)) dir q := by
  have ⟨t, hparents, hnode, hisdir⟩ := withParents_zero hl h.isDir h.hidden_zero
  have hfree : t.node (dir ++ [n]) = none := by rw [hnode, copyNode_child, h.node]
  have ⟨err', hloop⟩ := makeLoop_succ hl b.tree d dir n x keepErr err k
  refine ⟨t.insert dir n x hisdir hfree, ?_, ?_⟩
  · exact hloop.trans (makeLoop_one hl hparents (Tree.add_ok hisdir hfree x) keepErr err')
  · funext q
    show (if q = dir ++ [n] then some x else t.node q) = _
    rw [hnode]
    by_cases hq : q = dir ++ [allocWhname n]
    · have hwhiteout :
          copyNode b.tree.node (unionView (b :: rest)) dir (dir ++ [allocWhname n]) = none :=
        (copyNode_child (allocWhname n)).trans hwh
      simp [hq, hwhiteout]
    · simp [hq]

/-- A request works on the dentry and its first branch. -/
theorem withDentry_eq {β : Type} {s : Stack α} {p : Path} {d : Dentry α} {c : Nat}
    (h : dentryOf s p = .ok d) (hc : d.bstart = some c) (f : Dentry α → Nat → Except Errno β) :
    withDentry s p f = f d c := by
  simp only [withDentry, h, bind, Except.bind, hc]

/-- A whiteout in the leftmost branch becomes the file. -/
theorem rename_whiteout (hl : Live b rest) {dir : Path} {n : Text} (hn : isValidname n = true)
    {y : Inode α} (hw : b.tree.node (dir ++ [allocWhname n]) = some y)
    (hN : b.tree.node (dir ++ [n]) = none) (a : α) :
    ∃ t u, b.tree.notifyChange (dir ++ [allocWhname n]) (.reg a) = .ok t ∧
      t.vfsRename dir (allocWhname n) n = .ok u ∧
      u.node = fun q => if q = dir ++ [n] then some (.reg a)
        else if q = dir ++ [allocWhname n] then none else b.tree.node q := by
  have hreg := (hl.proper b List.mem_cons_self).reg dir n y hw
  have hi : (b.tree.node (dir ++ [allocWhname n])).map Inode.isDir =
      some (Inode.reg a).isDir := by
    rw [hw]
    cases y <;> simp_all [Inode.isReg, Inode.isDir]
  have hne : dir ++ [n] ≠ dir ++ [allocWhname n] := by
    simpa using ne_of_isValidname hn (not_isValidname_allocWhname n)
  set t := b.tree.update _ (.reg a) hi with ht
  have htw : t.node (dir ++ [allocWhname n]) = some (.reg a) := by
    show Flat.alter _ _ _ _ = _
    simp [Flat.alter]
  have htd : ¬ t.node.IsDirAt (dir ++ [allocWhname n]) := by
    simp [Flat.IsDirAt, htw, Inode.isDir]
  have hun := Tree.vfsUnlink_ok (by rw [htw]; simp) htd
  set t₁ := t.erase dir (allocWhname n) (t.list_eq_nil htd) with ht₁
  have hnode : ∀ q, t₁.node q =
      if q = dir ++ [allocWhname n] then none else b.tree.node q := by
    intro q
    show (if q = dir ++ [allocWhname n] then none else Flat.alter _ _ _ q) = _
    split_ifs with h
    · rfl
    · simp [Flat.alter, h]
  have hisdir : t₁.node.IsDirAt dir := by
    have habove := b.tree.closed dir _
      (by rw [hw]; simp : b.tree.node (dir ++ [allocWhname n]) ≠ none)
    have hself : dir ≠ dir ++ [allocWhname n] := by simp
    rw [Flat.IsDirAt, hnode, if_neg hself]
    exact habove
  have hfree : t₁.node (dir ++ [n]) = none := by rw [hnode, if_neg hne, hN]
  refine ⟨t, t₁.insert dir n (.reg a) hisdir hfree, ?_, ?_, ?_⟩
  · rw [Tree.notifyChange, dif_pos hi]
  · rw [Tree.vfsRename, htw]
    simp only [hun]
    exact Tree.add_ok hisdir hfree _
  · funext q
    show (if q = dir ++ [n] then some (.reg a) else t₁.node q) = _
    rw [hnode]

/-- `unionfs_create` makes a file that the union did not have. -/
theorem unionfsCreate_live (hl : Live b rest) {dir : Path}
    (hd : (unionView (b :: rest)).IsDirAt dir) {n : Text} (hn : isValidname n = true)
    (hV : unionView (b :: rest) (dir ++ [n]) = none) (a mark : α) :
    ∃ u, unionfsCreate (b :: rest) dir n a = .ok ({ b with tree := u } :: rest) ∧
      u.node = graftNode (copyNode b.tree.node (unionView (b :: rest)) dir) dir n
        (some (.reg a)) mark := by
  have ⟨d, c, h⟩ := absent_live hl hd hn hV
  have ⟨t₀, _, ht₀, ht0d⟩ := withParents_zero hl h.isDir h.hidden_zero
  have hcl : (copyNode b.tree.node (unionView (b :: rest)) dir).Closed := ht₀ ▸ t₀.closed
  rw [graftNode_make hcl hn ((copyNode_child n).trans h.node) rfl, unionfsCreate,
    withDentry_eq h.dentry h.neg.bstart, createFrom]
  by_cases hc : c = 0
  · subst hc
    have hN := h.first.mp rfl
    cases hwh : b.tree.node (dir ++ [allocWhname n]) with
    | none =>
      have ⟨u, hmade, hnode⟩ := makeLoop_live hl h hwh (.reg a) true .EROFS 0
      refine ⟨u, ?_, hnode⟩
      rw [show Stack.node (b :: rest) 0 (dir ++ [allocWhname n]) = none from hwh,
        if_neg (by simp), hmade]
      rfl
    | some y =>
      -- the whiteout is truncated and renamed
      have ⟨t, u, htruncate, hrename, hnode⟩ := rename_whiteout hl hn hwh h.node a
      have hfirst : Stack.onTree (b :: rest) 0
          (fun t => t.notifyChange (dir ++ [allocWhname n]) (.reg a)) =
            .ok ({ b with tree := t } :: rest) :=
        (onTree_zero hl b.tree _).trans (by rw [htruncate]; rfl)
      have hsecond : Stack.onTree ({ b with tree := t } :: rest) 0
          (fun t => t.vfsRename dir (allocWhname n) n) = .ok ({ b with tree := u } :: rest) :=
        (onTree_zero hl t _).trans (by rw [hrename]; rfl)
      refine ⟨u, ?_, ?_⟩
      · rw [show Stack.node (b :: rest) 0 (dir ++ [allocWhname n]) = some y from hwh,
          if_pos (by simp), hfirst]
        simp only [Except.toOption, Option.getD_some, isRobranchSuper_zero hl, hsecond, bind,
          Except.bind]
      · rw [hnode, copyNode_of_isDirAt b.tree.closed hN]
  · have hwh := whiteout_of_pos h hc (allocWhname n)
    have ⟨k, hk⟩ := Nat.exists_eq_succ_of_ne_zero hc
    subst hk
    by_cases hw : (Stack.node (b :: rest) (k + 1) (dir ++ [allocWhname n])).isSome = true
    · -- a whiteout to the right stays where it is
      have ⟨u, hmade, hnode⟩ := makeLoop_live hl h hwh (.reg a) true .EROFS k
      refine ⟨u, ?_, hnode⟩
      have hkept : ((Stack.onTree (b :: rest) (k + 1)
          (fun t => t.notifyChange (dir ++ [allocWhname n]) (.reg a))).toOption).getD (b :: rest) =
            b :: rest := by
        cases hdone : Stack.onTree (b :: rest) (k + 1)
            (fun t => t.notifyChange (dir ++ [allocWhname n]) (.reg a)) with
        | ok s' => exact absurd hdone (onTree_succ hl b.tree k _ s')
        | error e => rfl
      rw [if_pos hw, hkept]
      simp only [show isRobranchSuper (b :: rest) (k + 1) = .error .EROFS from
        isRobranchSuper_succ hl b.tree k, bind, Except.bind, hmade]
      rfl
    · have ⟨u, hmade, hnode⟩ := makeLoop_live hl h hwh (.reg a) true .EROFS (k + 1)
      refine ⟨u, ?_, hnode⟩
      rw [if_neg hw, hmade]
      rfl

/-- The whiteout of the leftmost branch can be unlinked. -/
theorem unlink_whiteout (hl : Live b rest) {dir : Path} {n : Text} {y : Inode α}
    (hw : b.tree.node (dir ++ [allocWhname n]) = some y) :
    ∃ t, b.tree.vfsUnlink dir (allocWhname n) = .ok t ∧
      t.node = fun q => if q = dir ++ [allocWhname n] then none else b.tree.node q := by
  have hreg := (hl.proper b List.mem_cons_self).reg dir n y hw
  have hd : ¬ b.tree.node.IsDirAt (dir ++ [allocWhname n]) := by
    intro h
    rw [Flat.IsDirAt, hw] at h
    cases y <;> simp_all [Inode.isReg, Inode.isDir]
  exact ⟨_, Tree.vfsUnlink_ok (by rw [hw]; simp) hd, rfl⟩

/-- What `unionfs_symlink`, `unionfs_mknod` and `unionfs_mkdir` come to: the entry in the leftmost
branch, where a whiteout for it is gone. -/
theorem unlinkWhiteoutAndMake_live (hl : Live b rest) {dir : Path} {n : Text} {d : Dentry α}
    {c : Nat} (h : Absent b rest dir n d c) (hn : isValidname n = true) (x : Inode α)
    (keepErr : Bool) :
    ∃ u, unlinkWhiteoutAndMake (b :: rest) d dir n x keepErr c =
        .ok ({ b with tree := u } :: rest, 0) ∧
      u.node = fun q => if q = dir ++ [n] then some x
        else if q = dir ++ [allocWhname n] then none
        else copyNode b.tree.node (unionView (b :: rest)) dir q := by
  rw [unlinkWhiteoutAndMake]
  by_cases hc : c = 0
  · subst hc
    have hN := h.first.mp rfl
    cases hwh : b.tree.node (dir ++ [allocWhname n]) with
    | none =>
      obtain ⟨u, hmade, hnode⟩ := makeLoop_live hl h hwh x keepErr .EROFS 0
      refine ⟨u, ?_, hnode⟩
      rw [show Stack.node (b :: rest) 0 (dir ++ [allocWhname n]) = none from hwh,
        if_neg (by simp), hmade]
    | some y =>
      -- the whiteout goes first, and the branch has the directory
      obtain ⟨t, hunlink, hnode⟩ := unlink_whiteout hl hwh
      have hfirst : Stack.onTree (b :: rest) 0 (fun t => t.vfsUnlink dir (allocWhname n)) =
          .ok ({ b with tree := t } :: rest) :=
        (onTree_zero hl b.tree _).trans (by rw [hunlink]; rfl)
      have hhidden : (d.hidden 0).isSome = true := by rw [h.neg.hidden, if_pos rfl]; rfl
      have hne : dir ≠ dir ++ [allocWhname n] := by simp
      have hnew : dir ++ [n] ≠ dir ++ [allocWhname n] := by
        simpa using ne_of_isValidname hn (not_isValidname_allocWhname n)
      have hisdir : t.node.IsDirAt dir := by
        rw [Flat.IsDirAt, hnode]
        simp only [hne, if_false]
        exact hN
      have hfree : t.node (dir ++ [n]) = none := by
        rw [hnode]
        simp only [hnew, if_false, h.node]
      refine ⟨t.insert dir n x hisdir hfree, ?_, ?_⟩
      · rw [show Stack.node (b :: rest) 0 (dir ++ [allocWhname n]) = some y from hwh,
          if_pos (by simp)]
        simp only [show isRobranchSuper (b :: rest) 0 = .ok () from isRobranchSuper_zero hl b.tree,
          hfirst, bind, Except.bind]
        exact makeLoop_one hl (withParents_of_hidden hhidden dir) (Tree.add_ok hisdir hfree x)
          keepErr .EROFS
      · funext q
        show (if q = dir ++ [n] then some x else t.node q) = _
        rw [hnode, copyNode_of_isDirAt b.tree.closed hN]
  · have hwh := whiteout_of_pos h hc (allocWhname n)
    obtain ⟨k, hk⟩ := Nat.exists_eq_succ_of_ne_zero hc
    subst hk
    by_cases hw : (Stack.node (b :: rest) (k + 1) (dir ++ [allocWhname n])).isSome = true
    · obtain ⟨u, hmade, hnode⟩ := makeLoop_live hl h hwh x keepErr .EROFS k
      refine ⟨u, ?_, hnode⟩
      rw [if_pos hw]
      simp only [show isRobranchSuper (b :: rest) (k + 1) = .error .EROFS from
        isRobranchSuper_succ hl b.tree k, bind, Except.bind, hmade]
    · obtain ⟨u, hmade, hnode⟩ := makeLoop_live hl h hwh x keepErr .EROFS (k + 1)
      refine ⟨u, ?_, hnode⟩
      rw [if_neg hw, hmade]

section

variable (hl : Live b rest) {dir : Path} (hd : (unionView (b :: rest)).IsDirAt dir) {n : Text}
  (hn : isValidname n = true) (hV : unionView (b :: rest) (dir ++ [n]) = none) (a mark : α)

include hl hd hn hV

/-- `unionfs_symlink` and `unionfs_mknod` differ only in the errors that they keep. -/
theorem unionfsNew_live (keepErr : Bool) :
    ∃ u, (withDentry (b :: rest) (dir ++ [n]) fun d bstart =>
        (unlinkWhiteoutAndMake (b :: rest) d dir n (.other a) keepErr bstart).map Prod.fst) =
          .ok ({ b with tree := u } :: rest) ∧
      u.node = graftNode (copyNode b.tree.node (unionView (b :: rest)) dir) dir n
        (some (.other a)) mark := by
  have ⟨d, c, h⟩ := absent_live hl hd hn hV
  have ⟨t₀, _, ht₀, _⟩ := withParents_zero hl h.isDir h.hidden_zero
  have hcl : (copyNode b.tree.node (unionView (b :: rest)) dir).Closed := ht₀ ▸ t₀.closed
  have ⟨u, hmade, hnode⟩ := unlinkWhiteoutAndMake_live hl h hn (.other a) keepErr
  refine ⟨u, ?_, ?_⟩
  · rw [withDentry_eq h.dentry h.neg.bstart, hmade]
    rfl
  · rw [hnode, graftNode_make hcl hn ((copyNode_child n).trans h.node) rfl]

/-- `unionfs_symlink` makes the link in the leftmost branch. -/
theorem unionfsSymlink_live :
    ∃ u, unionfsSymlink (b :: rest) dir n a = .ok ({ b with tree := u } :: rest) ∧
      u.node = graftNode (copyNode b.tree.node (unionView (b :: rest)) dir) dir n
        (some (.other a)) mark :=
  unionfsNew_live hl hd hn hV a mark true

/-- `unionfs_mknod` makes the node in the leftmost branch. -/
theorem unionfsMknod_live :
    ∃ u, unionfsMknod (b :: rest) dir n a = .ok ({ b with tree := u } :: rest) ∧
      u.node = graftNode (copyNode b.tree.node (unionView (b :: rest)) dir) dir n
        (some (.other a)) mark :=
  unionfsNew_live hl hd hn hV a mark false

/-- A new directory gets its mark, so nothing of the other branches shows in it. -/
theorem unionfsMkdir_live :
    ∃ u, unionfsMkdir (b :: rest) dir n a mark = .ok ({ b with tree := u } :: rest) ∧
      u.node = graftNode (copyNode b.tree.node (unionView (b :: rest)) dir) dir n
        (some (.dir a)) mark := by
  have ⟨d, c, h⟩ := absent_live hl hd hn hV
  have ⟨t₀, _, ht₀, _⟩ := withParents_zero hl h.isDir h.hidden_zero
  have hcl : (copyNode b.tree.node (unionView (b :: rest)) dir).Closed := ht₀ ▸ t₀.closed
  have hchild : copyNode b.tree.node (unionView (b :: rest)) dir (dir ++ [n]) = none :=
    (copyNode_child n).trans h.node
  have ⟨t, hmade, hnode⟩ := unlinkWhiteoutAndMake_live hl h hn (.dir a) false
  have hdir : t.node.IsDirAt (dir ++ [n]) := by simp [Flat.IsDirAt, hnode, Inode.isDir]
  have hnone : t.node (dir ++ [n] ++ [unionfsDirOpaque]) = none := by
    have hmark : dir ++ [n] ++ [unionfsDirOpaque] ≠ dir ++ [n] := by simp
    have hwhiteout : dir ++ [n] ++ [unionfsDirOpaque] ≠ dir ++ [allocWhname n] := by simp
    rw [hnode]
    simp only [hmark, hwhiteout, if_false]
    exact hcl.none_append (List.cons_ne_nil _ _) (Flat.not_isDirAt hchild)
  refine ⟨t.insert (dir ++ [n]) unionfsDirOpaque (.reg mark) hdir hnone, ?_, ?_⟩
  · rw [unionfsMkdir, withDentry_eq h.dentry h.neg.bstart, hmade]
    show makeDirOpaque ({ b with tree := t } :: rest) (dir ++ [n]) mark 0 = _
    rw [makeDirOpaque, node_zero, hnone, if_neg (by simp), onTree_zero hl,
      Tree.add_ok hdir hnone]
    rfl
  · rw [graftNode_mkdir hcl hn hchild rfl]
    funext q
    show (if q = dir ++ [n] ++ [unionfsDirOpaque] then some (.reg mark) else t.node q) = _
    rw [hnode]

end

end Kernel
