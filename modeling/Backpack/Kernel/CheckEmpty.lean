import Backpack.Kernel.Deleting

/-!
# Removed directories

`check_empty` reads the directory in each branch, from the left, and keeps the names of the
whiteouts; a name that was not seen as one means that the directory is not empty. Here is that
this is so exactly when the union shows nothing in the directory, as long as the partial
lookup before it did not go on past an opaque directory and end at a second one or at a whiteout.
-/

namespace Kernel

open Shell Overlay
open UnionFs (Path whPrefix)

variable {α : Type}

/-! ## The names that are read -/

/-- The listing of a directory: entries and whiteouts, and none of them for the same name. -/
structure Listing (L : List Text) : Prop where
  names : ∀ e ∈ L, isValidname e = true ∨ ∃ m, m ≠ [] ∧ e = allocWhname m
  once : ∀ e ∈ L, isValidname e = true → allocWhname e ∉ L

/-- The listing of a proper branch has valid names and whiteouts of names. -/
theorem Proper.listing {t : Tree α} (h : Proper t.node) (p : Path) : Listing (t.list p) := by
  refine ⟨fun e he => ?_, fun e he hv hw => ?_⟩
  · rcases h.names p e ((t.mem_list p e).mp he) with hvalid | ⟨m, hm, _, hwh⟩ | hmarked
    · exact .inl hvalid
    · exact .inr ⟨m, hm, hwh⟩
    · exact .inr ⟨unionfsDirOpaqueName, by simp [unionfsDirOpaqueName], hmarked⟩
  · exact (t.mem_list p e).mp he (h.once p e hv ((t.mem_list p _).mp hw))

/-- How the two callbacks tell whiteouts from entries. -/
theorem isWhiteout_allocWhname {m : Text} (hm : m ≠ []) :
    (decide (4 < (allocWhname m).length) && whPrefix.isPrefixOf (allocWhname m)) = true := by
  have hlong : 4 < (allocWhname m).length := by
    have := List.length_pos_iff.mpr hm
    simp only [allocWhname, whPrefix, List.length_append, List.length_cons, List.length_nil]
    omega
  have hmark : whPrefix.isPrefixOf (allocWhname m) = true := by simp [allocWhname]
  rw [hmark, decide_eq_true hlong, Bool.true_and]

/-- A valid name is not taken for a whiteout. -/
theorem isWhiteout_of_valid {e : Text} (he : isValidname e = true) :
    (decide (4 < e.length) && whPrefix.isPrefixOf e) = false := by
  have hmark : whPrefix.isPrefixOf e = false := by
    rw [isValidname, Bool.and_eq_true] at he
    simpa using he.1
  rw [hmark, Bool.and_false]

theorem drop_allocWhname (m : Text) : (allocWhname m).drop 4 = m := rfl

/-- A whiteout is noted once. -/
theorem readdirUtilCallback_whiteout {m : Text} (hm : m ≠ []) (j : Nat) (st : List FilldirNode) :
    readdirUtilCallback j st (allocWhname m) =
      if ∃ node ∈ st, node.name = m then .ok st else .ok (st ++ [⟨m, j, true⟩]) := by
  simp only [readdirUtilCallback, isWhiteout_allocWhname hm, drop_allocWhname, if_true,
    List.any_eq_true, decide_eq_true_eq]

/-- A name ends the check unless it was whited out before. -/
theorem readdirUtilCallback_valid {e : Text} (he : isValidname e = true) (j : Nat)
    (st : List FilldirNode) :
    readdirUtilCallback j st e =
      if ∃ node ∈ st, node.name = e then .ok st else .error .ENOTEMPTY := by
  simp only [readdirUtilCallback, isWhiteout_of_valid he, Bool.false_eq_true, if_false,
    List.any_eq_true, decide_eq_true_eq]

/-- A listing passes when each of its names was whited out before, and its whiteouts are noted. -/
theorem foldlM_ok (j : Nat) {L : List Text} {st : List FilldirNode}
    (hL : ∀ e ∈ L, isValidname e = true ∨ ∃ m, m ≠ [] ∧ e = allocWhname m)
    (h : ∀ e ∈ L, isValidname e = true → ∃ node ∈ st, node.name = e) :
    ∃ new, L.foldlM (readdirUtilCallback j) st = .ok (st ++ new) ∧
      (∀ node ∈ new, node.bindex = j ∧ node.whiteout = true ∧ allocWhname node.name ∈ L) ∧
      ∀ m, m ≠ [] → allocWhname m ∈ L → ∃ node ∈ st ++ new, node.name = m := by
  induction L generalizing st with
  | nil => exact ⟨[], by simp [pure, Except.pure], by simp, by simp⟩
  | cons e L ih =>
    have hL' := fun x hx => hL x (List.mem_cons_of_mem e hx)
    have h' := fun x hx => h x (List.mem_cons_of_mem e hx)
    -- the names that were read are those read before and this one
    have hout : ∀ {st' new : List FilldirNode},
        (∀ m, m ≠ [] → allocWhname m ∈ L → ∃ node ∈ st' ++ new, node.name = m) →
        (∀ m, m ≠ [] → allocWhname m = e → ∃ node ∈ st' ++ new, node.name = m) →
        ∀ m, m ≠ [] → allocWhname m ∈ e :: L → ∃ node ∈ st' ++ new, node.name = m := by
      intro st' new hrest hfirst m hm hmem
      rcases List.mem_cons.mp hmem with hmem | hmem
      · exact hfirst m hm hmem
      · exact hrest m hm hmem
    rw [List.foldlM_cons]
    rcases hL e List.mem_cons_self with hv | ⟨m, hm, he⟩
    · have ⟨new, hrun, hnew, hnames⟩ := ih hL' h'
      refine ⟨new, ?_, fun node hn => ?_, hout hnames fun m _ hme => ?_⟩
      · rw [readdirUtilCallback_valid hv, if_pos (h e List.mem_cons_self hv)]
        exact hrun
      · have ⟨hj, hwh, hmem⟩ := hnew node hn
        exact ⟨hj, hwh, List.mem_cons_of_mem e hmem⟩
      · exact absurd hme (allocWhname_ne_of_isValidname hv)
    · subst he
      rw [readdirUtilCallback_whiteout hm]
      by_cases hseen : ∃ node ∈ st, node.name = m
      · have ⟨new, hrun, hnew, hnames⟩ := ih hL' h'
        refine ⟨new, ?_, fun node hn => ?_, hout hnames fun m' _ hme => ?_⟩
        · rw [if_pos hseen]
          exact hrun
        · have ⟨hj, hwh, hmem⟩ := hnew node hn
          exact ⟨hj, hwh, List.mem_cons_of_mem _ hmem⟩
        · have ⟨node, hnode, hname⟩ := hseen
          exact ⟨node, List.mem_append_left new hnode, hname.trans (allocWhname_injective hme).symm⟩
      · have ⟨new, hrun, hnew, hnames⟩ := @ih (st ++ [⟨m, j, true⟩]) hL' fun x hx hv => by
          have ⟨node, hnode, hname⟩ := h' x hx hv
          exact ⟨node, List.mem_append_left _ hnode, hname⟩
        rw [List.append_assoc] at hrun hnames
        refine ⟨[⟨m, j, true⟩] ++ new, ?_, fun node hn => ?_, hout hnames fun m' _ hme => ?_⟩
        · rw [if_neg hseen]
          exact hrun
        · rcases List.mem_append.mp hn with hn | hn
          · rw [List.mem_singleton.mp hn]
            exact ⟨rfl, rfl, List.mem_cons_self⟩
          · have ⟨hj, hwh, hmem⟩ := hnew node hn
            exact ⟨hj, hwh, List.mem_cons_of_mem _ hmem⟩
        · exact ⟨⟨m, j, true⟩, by simp, (allocWhname_injective hme).symm⟩

/-- A listing fails on a name that was not whited out before. -/
theorem foldlM_error (j : Nat) {L : List Text} {st : List FilldirNode}
    (hL : ∀ e ∈ L, isValidname e = true ∨ ∃ m, m ≠ [] ∧ e = allocWhname m) {e : Text} (he : e ∈ L)
    (hv : isValidname e = true) (hst : ∀ node ∈ st, node.name ≠ e) (hw : allocWhname e ∉ L) :
    L.foldlM (readdirUtilCallback j) st = .error .ENOTEMPTY := by
  induction L generalizing st with
  | nil => exact absurd he List.not_mem_nil
  | cons k L ih =>
    have hL' := fun x hx => hL x (List.mem_cons_of_mem k hx)
    have hw' := List.not_mem_of_not_mem_cons hw
    rw [List.foldlM_cons]
    rcases hL k List.mem_cons_self with hk | ⟨m, hm, hk⟩
    · rw [readdirUtilCallback_valid hk]
      by_cases hseen : ∃ node ∈ st, node.name = k
      · have hne : e ≠ k := by
          intro heq
          have ⟨node, hnode, hname⟩ := hseen
          exact hst node hnode (hname.trans heq.symm)
        rw [if_pos hseen]
        exact ih hL' ((List.mem_cons.mp he).resolve_left hne) hst hw'
      · rw [if_neg hseen]
        rfl
    · subst hk
      have hne : e ≠ allocWhname m := (allocWhname_ne_of_isValidname hv).symm
      have hme : m ≠ e := fun heq => hw (heq ▸ List.mem_cons_self)
      have heL := (List.mem_cons.mp he).resolve_left hne
      rw [readdirUtilCallback_whiteout hm]
      split_ifs
      · exact ih hL' heL hst hw'
      · refine ih hL' heL (fun node hn => ?_) hw'
        rcases List.mem_append.mp hn with hn | hn
        · exact hst node hn
        · rw [List.mem_singleton.mp hn]
          exact hme

/-! ## The loop over branches -/

/-- A name shows in the branches `is`, apart from those that were seen before: one of them has it,
and neither that one nor one left of it has its whiteout. -/
def Shows (list : Nat → List Text) (is : List Nat) (st : List FilldirNode) (m : Text) : Prop :=
  ∃ l j r, is = l ++ j :: r ∧ isValidname m = true ∧ m ∈ list j ∧
    (∀ node ∈ st, node.name ≠ m) ∧ ∀ i ∈ l ++ [j], allocWhname m ∉ list i

section

variable {s : Stack α} {d : Dentry α} {p : Path}

/-- One turn of the loop reads one branch. -/
theorem checkEmptyLoop_cons {k : Nat} (hk : d.hiddenDir k = true) (is : List Nat)
    (st : List FilldirNode) :
    checkEmptyLoop s d p (k :: is) st =
      ((s.list k p).foldlM (readdirUtilCallback k) st).bind (checkEmptyLoop s d p is) := by
  have ⟨a, ha⟩ := Dentry.hiddenDir_iff.mp hk
  rw [checkEmptyLoop, ha]
  rfl

/-- Branches without the directory do not count. -/
theorem checkEmptyLoop_filter (is : List Nat) (st : List FilldirNode) :
    checkEmptyLoop s d p is st = checkEmptyLoop s d p (is.filter d.hiddenDir) st := by
  induction is generalizing st with
  | nil => rfl
  | cons k is ih =>
    by_cases hk : d.hiddenDir k = true
    · rw [List.filter_cons_of_pos hk, checkEmptyLoop_cons hk, checkEmptyLoop_cons hk]
      exact congrArg _ (funext fun st => ih st)
    · rw [List.filter_cons_of_neg hk, ← ih, checkEmptyLoop]
      have hdir : ∀ a, d.hidden k ≠ some (some (.dir a)) := fun a ha =>
        hk (Dentry.hiddenDir_iff.mpr ⟨a, ha⟩)
      match hobj : d.hidden k with
      | none => rfl
      | some none => rfl
      | some (some (.reg a)) => rfl
      | some (some (.other a)) => rfl
      | some (some (.dir a)) => exact absurd hobj (hdir a)

/-- The loop passes when no name shows through, and notes only whiteouts. -/
theorem checkEmptyLoop_ok {is : List Nat} (his : ∀ k ∈ is, d.hiddenDir k = true)
    (hlist : ∀ k ∈ is, Listing (s.list k p)) {st : List FilldirNode}
    (h : ∀ m, ¬ Shows (fun k => s.list k p) is st m) :
    ∃ new, checkEmptyLoop s d p is st = .ok (st ++ new) ∧
      (∀ node ∈ new, node.whiteout = true) ∧
      ∀ k, is.head? = some k → ∀ m, m ≠ [] → allocWhname m ∈ s.list k p →
        (∃ node ∈ st, node.name = m) ∨ ⟨m, k, true⟩ ∈ new := by
  induction is generalizing st with
  | nil => exact ⟨[], by simp [checkEmptyLoop], by simp, by simp⟩
  | cons k is ih =>
    have hk := his k List.mem_cons_self
    have hL := hlist k List.mem_cons_self
    -- an entry of this branch was seen as a whiteout before
    have hseen : ∀ e ∈ s.list k p, isValidname e = true → ∃ node ∈ st, node.name = e := by
      intro e he hv
      by_contra hnone
      refine h e ⟨[], k, is, rfl, hv, he, fun node hn hname => hnone ⟨node, hn, hname⟩,
        fun i hi => ?_⟩
      rw [List.nil_append, List.mem_singleton] at hi
      exact hi ▸ hL.once e he hv
    have ⟨new, hrun, hnew, hnames⟩ := foldlM_ok k hL.names hseen
    have hrest : ∀ m, ¬ Shows (fun k => s.list k p) is (st ++ new) m := by
      intro m ⟨l, j, r, hsplit, hvalid, hmem, hst, hleft⟩
      have hw : allocWhname m ∉ s.list k p := by
        intro hw
        by_cases hm : m = []
        · -- `.wh.` alone is neither an entry nor a whiteout
          rcases hL.names _ hw with hv | ⟨m', hm', heq⟩
          · exact absurd rfl (allocWhname_ne_of_isValidname hv)
          · exact hm' ((allocWhname_injective heq).symm.trans hm)
        · have ⟨node, hnode, hname⟩ := hnames m hm hw
          exact hst node hnode hname
      refine h m ⟨k :: l, j, r, by rw [hsplit]; rfl, hvalid, hmem,
        fun node hn => hst node (List.mem_append_left new hn), fun i hi => ?_⟩
      rcases List.mem_cons.mp hi with hi | hi
      · exact hi ▸ hw
      · exact hleft i hi
    have ⟨new', hrun', hnew', _⟩ := ih (fun i hi => his i (List.mem_cons_of_mem k hi))
      (fun i hi => hlist i (List.mem_cons_of_mem k hi)) hrest
    refine ⟨new ++ new', ?_, fun node hn => ?_, fun i hi m hm hw => ?_⟩
    · rw [checkEmptyLoop_cons hk, hrun, ← List.append_assoc]
      exact hrun'
    · rcases List.mem_append.mp hn with hn | hn
      · exact (hnew node hn).2.1
      · exact hnew' node hn
    · rw [List.head?_cons, Option.some.injEq] at hi
      subst hi
      have ⟨node, hnode, hname⟩ := hnames m hm hw
      rcases List.mem_append.mp hnode with hnode | hnode
      · exact .inl ⟨node, hnode, hname⟩
      · have ⟨hj, hwh, _⟩ := hnew node hnode
        have heq : node = ⟨m, k, true⟩ := by
          cases node
          simp_all
        exact .inr (List.mem_append_left new' (heq ▸ hnode))

/-- The loop fails on a name that shows through. -/
theorem checkEmptyLoop_error {is : List Nat} (his : ∀ k ∈ is, d.hiddenDir k = true)
    (hlist : ∀ k ∈ is, Listing (s.list k p)) {st : List FilldirNode}
    {m : Text} (h : Shows (fun k => s.list k p) is st m) :
    checkEmptyLoop s d p is st = .error .ENOTEMPTY := by
  induction is generalizing st with
  | nil =>
    have ⟨l, j, r, hnil, _⟩ := h
    simp at hnil
  | cons k is ih =>
    have hk := his k List.mem_cons_self
    have hL := hlist k List.mem_cons_self
    rw [checkEmptyLoop_cons hk]
    by_cases hfold : ∃ e ∈ s.list k p, isValidname e = true ∧ ∀ node ∈ st, node.name ≠ e
    · have ⟨e, he, hv, hst⟩ := hfold
      rw [foldlM_error k hL.names he hv hst (hL.once e he hv)]
      rfl
    · -- nothing of this branch, so a name of a later one
      have hseen : ∀ e ∈ s.list k p, isValidname e = true → ∃ node ∈ st, node.name = e := by
        intro e he hv
        by_contra hnone
        exact hfold ⟨e, he, hv, fun node hn hname => hnone ⟨node, hn, hname⟩⟩
      have ⟨new, hrun, hnew, _⟩ := foldlM_ok k hL.names hseen
      rw [hrun]
      refine ih (fun i hi => his i (List.mem_cons_of_mem k hi))
        (fun i hi => hlist i (List.mem_cons_of_mem k hi)) ?_
      have ⟨l, j, r, hsplit, hvalid, hmem, hst, hleft⟩ := h
      cases l with
      | nil =>
        rw [List.nil_append, List.cons.injEq] at hsplit
        have ⟨node, hnode, hname⟩ := hseen m (hsplit.1 ▸ hmem) hvalid
        exact absurd hname (hst node hnode)
      | cons a l =>
        rw [List.cons_append, List.cons.injEq] at hsplit
        refine ⟨l, j, r, hsplit.2, hvalid, hmem, fun node hn => ?_,
          fun i hi => hleft i (List.mem_cons_of_mem a hi)⟩
        rcases List.mem_append.mp hn with hn | hn
        · exact hst node hn
        · intro hname
          have hwh := (hnew node hn).2.2
          rw [hname, hsplit.1] at hwh
          exact hleft a List.mem_cons_self hwh

end

/-! ## The branches that are read -/

/-- Branches without whiteouts and marks of opaque directories. -/
def Plain (rest : Stack α) : Prop :=
  ∀ c ∈ rest, ∀ q m, c.tree.node (q ++ [allocWhname m]) = none

/-- A plain branch has no whiteouts. -/
theorem Plain.node {b : Branch α} {rest : Stack α} (h : Plain rest) {k : Nat} (hk : 0 < k)
    (q : Path) (m : Text) : Stack.node (b :: rest) k (q ++ [allocWhname m]) = none := by
  have ⟨j, hj⟩ := Nat.exists_eq_succ_of_ne_zero hk.ne'
  subst hj
  show (rest[j]?.bind fun c => c.tree.node _) = none
  cases hc : rest[j]? with
  | none => rfl
  | some c => exact h c (List.mem_of_getElem? hc) q m

/-- A sorted list that takes all of another up to its last is the start of it. -/
theorem prefix_of_sorted {L M : List Nat} (hL : L.Pairwise (· < ·)) (hM : M.Pairwise (· < ·))
    (hsub : ∀ j ∈ L, j ∈ M) (hdown : ∀ j ∈ L, ∀ k ∈ M, k ≤ j → k ∈ L) : L <+: M := by
  induction M generalizing L with
  | nil => rw [List.eq_nil_iff_forall_not_mem.mpr fun j hj => List.not_mem_nil (hsub j hj)]
  | cons k M ih =>
    cases L with
    | nil => exact List.nil_prefix
    | cons j L =>
      have hj := List.pairwise_cons.mp hL
      have hk := List.pairwise_cons.mp hM
      have hkj : k ≤ j := by
        rcases List.mem_cons.mp (hsub j List.mem_cons_self) with h | h
        · exact h.symm.le
        · exact (hk.1 j h).le
      have hjk : k = j := by
        rcases List.mem_cons.mp (hdown j List.mem_cons_self k List.mem_cons_self hkj) with h | h
        · exact h
        · have := hj.1 k h
          omega
      subst hjk
      refine List.cons_prefix_cons.mpr ⟨rfl, ih hj.2 hk.2 (fun a ha => ?_) fun a ha c hc hca => ?_⟩
      · have hlt := hj.1 a ha
        exact (List.mem_cons.mp (hsub a (List.mem_cons_of_mem k ha))).resolve_left (by omega)
      · have hlt := hk.1 c hc
        exact (List.mem_cons.mp (hdown a (List.mem_cons_of_mem k ha) c
          (List.mem_cons_of_mem k hc) hca)).resolve_left (by omega)

/-- The first lookup of a directory, for the branches that have its parent. -/
theorem lookup_passed {s : Stack α} (hreg : WhiteoutsReg s) {dir : Path} {parent d : Dentry α}
    {c e : Nat} (hp : IsDirDentry s dir parent c e) (hdir : dir.all isValidname = true) {n : Text}
    (hn : isValidname n = true) (h : unionfsLookupBackend s parent dir n = .ok d) {x : Inode α}
    (hd : d.inode = some x) (hx : x.isDir = true) :
    (∀ j, d.hidden j ≠ none → ∀ k, parent.hiddenDir k = true → k ≤ j → Seen s dir n d k) ∧
    (∀ w, d.bopaqueIndex = some w → ∀ j, d.hidden j ≠ none → j ≤ w) ∧
    ∀ k, parent.hiddenDir k = true → Seen s dir n d k ∨
      s.node k (dir ++ [allocWhname n]) ≠ none ∨ ∃ w < k, d.bopaqueIndex = some w := by
  have his : ∀ k ∈ parent.dirs s, parent.hiddenDir k = true := fun k hk => (List.mem_filter.mp hk).2
  have hmem : ∀ k, parent.hiddenDir k = true → k ∈ parent.dirs s := fun k hk =>
    List.mem_filter.mpr ⟨List.mem_range.mpr (hp.lt_of_hiddenDir hk).2.2, hk⟩
  have hsorted := IsDirDentry.dirs_pairwise s parent
  have ⟨st, stop, hrun, hend⟩ := lookupLoop_found hreg hdir hn his hsorted none
  have ⟨_, hhidden, hmarked, hpassed⟩ := lookupLoop_passed hreg his hsorted (fun _ => rfl) rfl hrun
  unfold unionfsLookupBackend at h
  rw [hn, hp.bstart, hp.bend] at h
  simp only [hp.lookupLoop_eq, hrun, Bool.true_eq_false, if_false, bind, Except.bind] at h
  cases hend with
  | dir b' e' y r hfound hcount hbstart hbend hfirst hdir' =>
    rw [if_neg hcount, Except.ok.injEq] at h
    subst h
    refine ⟨fun j hj k hk hkj => (hhidden j rfl hj).2 k (hmem k hk) hkj,
      fun w hw j hj => (hmarked w hw).2 j rfl hj, fun k hk => ?_⟩
    rcases hpassed with ⟨i, z, hi, hz, hfile⟩ | hpassed
    · -- the first entry is a directory
      rw [hbstart, Option.some.injEq] at hi
      rw [← hi, hfirst, Option.some.injEq, Option.some.injEq] at hz
      rw [← hz, hdir'] at hfile
      simp at hfile
    · exact hpassed k (hmem k hk)
  | file b' y hfound hreg' hnode hcount hfile =>
    rw [if_neg hcount, Except.ok.injEq] at h
    rw [← h, hfile] at hd
    simp only [fileDentry, Option.bind_some, if_true, Option.join_some, Option.some.injEq] at hd
    rw [← hd, hreg'] at hx
    simp at hx
  | negative hfound hcount hnone hoffset =>
    rw [if_pos hcount, Except.ok.injEq] at h
    rw [← h] at hd
    rw [hnone] at hd
    simp at hd

variable {b : Branch α} {rest : Stack α} {dir : Path} {n : Text}

/-- A branch up to the opaque one stays in range. -/
theorem le_clipBend {bopaqueIndex : Option Nat} {e j : Nat} (hle : j ≤ e)
    (hmarked : ∀ w, bopaqueIndex = some w → j ≤ w) : j ≤ clipBend bopaqueIndex e := by
  cases bopaqueIndex with
  | none => exact hle
  | some w =>
    have := hmarked w rfl
    rw [clipBend]
    split_ifs <;> omega

/-- `check_empty` reads the directories that the union merges, and after them at most what the
partial lookup found past an opaque one. -/
theorem Deleted.dirs (hl : Live b rest) (hn : isValidname n = true) {x : Inode α}
    (hx : x.isDir = true) {parent d0 d : Dentry α} {i : Nat} {is : List Nat}
    (h : Deleted b rest dir n x parent d0 d i is) :
    ∃ L e, d.bend = some e ∧
      L <+: (branches i (clipBend d.bopaqueIndex e)).filter d.hiddenDir ∧
      (∀ m, isValidname m = true → (unionView (b :: rest) (dir ++ [n] ++ [m]) ≠ none ↔
        found m (Stack.layerAt (b :: rest) (dir ++ [n])) L ≠ [])) ∧
      (Plain rest → (branches i (clipBend d.bopaqueIndex e)).filter d.hiddenDir = L) := by
  have hdir := valid_of_unionView h.present.isDir.ne_none
  have hp : (dir ++ [n]).all isValidname = true := by simp [hdir, hn]
  obtain ⟨c, e, hpar⟩ := h.dirDentry
  obtain ⟨d1, hrun, hkind⟩ := dentryOf_child hl.whiteoutsReg hpar h.view hdir hn
  have heq : d1 = d0 := by
    rw [h.lookup, Except.ok.injEq] at hrun
    exact hrun.symm
  subst heq
  rcases hkind with ⟨b', e0, _, hd1, hinode, _, hdirs⟩ | ⟨b', y, _, _, hfile, hnode, _⟩ |
    ⟨_, hnone, _⟩
  rotate_left
  · rw [h.present.view, Option.some.injEq] at hnode
    rw [← hnode, hx] at hfile
    simp at hfile
  · rw [h.present.view] at hnone
    simp at hnone
  have hb' : b' = i := by
    have hbstart := h.before.bstart
    rw [hd1.bstart, Option.some.injEq] at hbstart
    exact hbstart
  subst hb'
  obtain ⟨hright, hmarked, hpassed⟩ := lookup_passed hl.whiteoutsReg hpar hdir hn h.lookup
    (hinode.trans h.present.view) hx
  -- what was found later is to the right of what was found first
  have hlater : ∀ j, d1.hidden j ≠ none → ∀ k ∈ is, ¬ Seen (b :: rest) dir n d1 k → j < k := by
    intro j hj k hk hns
    by_contra hle
    exact hns (hright j hj k (h.right k hk).1 (by omega))
  have hv : ∀ r, d1.view (b :: rest) (dir ++ [n]) r = unionView (b :: rest) (dir ++ [n] ++ r) := by
    intro r
    rw [Dentry.view, hdirs, ← Dentry.view_cons, h.view, List.append_assoc, List.singleton_append]
  set L := d1.dirs (b :: rest) with hL
  have hhid : ∀ j ∈ L, d1.hidden j ≠ none := by
    intro j hj
    obtain ⟨a, ha⟩ := Dentry.hiddenDir_iff.mp (List.mem_filter.mp hj).2
    simp [ha]
  have hsame : ∀ k, d.hiddenDir k = true →
      k ∈ L ∨ k ∈ is ∧ ¬ Seen (b :: rest) dir n d1 k := by
    intro k hk
    rcases h.extend.hidden k with heq | hnew
    · left
      have hk1 : d1.hiddenDir k = true := by rw [Dentry.hiddenDir, ← heq]; exact hk
      exact List.mem_filter.mpr ⟨List.mem_range.mpr (hd1.lt_of_hiddenDir hk1).2.2, hk1⟩
    · exact .inr ⟨hnew.1, hnew.2.1⟩
  obtain ⟨e', he', hle⟩ : ∃ e', d.bend = some e' ∧ ∀ j ∈ L, j ≤ e' := by
    rcases h.extend.bend with heq | ⟨k, hk, hns, hbend⟩
    · exact ⟨e0, heq.trans hd1.bend,
        fun j hj => (hd1.lt_of_hiddenDir (List.mem_filter.mp hj).2).2.1⟩
    · exact ⟨k, hbend, fun j hj => (hlater j (hhid j hj) k hk hns).le⟩
  have hclip : ∀ j ∈ L, j ≤ clipBend d.bopaqueIndex e' := by
    refine fun j hj => le_clipBend (hle j hj) fun w hw => ?_
    rcases h.extend.bopaqueIndex with heq | ⟨k, hk, hns, _, hk'⟩
    · exact hmarked w (heq ▸ hw) j (hhid j hj)
    · rw [hw, Option.some.injEq] at hk'
      exact hk' ▸ (hlater j (hhid j hj) k hk hns).le
  set M := (branches b' (clipBend d.bopaqueIndex e')).filter d.hiddenDir with hM
  have hLM : ∀ j ∈ L, j ∈ M := by
    intro j hj
    have hle' := (hd1.lt_of_hiddenDir (List.mem_filter.mp hj).2).1
    have hge := hclip j hj
    refine List.mem_filter.mpr ⟨List.mem_range'_1.mpr ⟨hle', by omega⟩, ?_⟩
    rcases h.extend.hidden j with heq | hnew
    · rw [Dentry.hiddenDir, heq]
      exact (List.mem_filter.mp hj).2
    · exact absurd (.inl (hhid j hj)) hnew.2.1
  have hpre : L <+: M := by
    refine prefix_of_sorted (List.Pairwise.filter _ List.pairwise_lt_range)
      (List.Pairwise.filter _ List.pairwise_lt_range') hLM fun j hj k hk hkj => ?_
    rcases hsame k (List.mem_filter.mp hk).2 with hkL | ⟨hkis, hns⟩
    · exact hkL
    · have := hlater j (hhid j hj) k hkis hns
      omega
  refine ⟨L, e', he', hpre, fun m hm => ?_, fun hplain => ?_⟩
  · exact (found_ne_nil_child hl.whiteoutsReg hd1 hv hp hm).symm
  · -- past an opaque directory the partial lookup found no other
    refine (hpre.eq_of_length_le ?_).symm
    refine (List.Nodup.subperm (List.Nodup.filter _ List.nodup_range') fun k hk => ?_).length_le
    rcases hsame k (List.mem_filter.mp hk).2 with hkL | ⟨hkis, hns⟩
    · exact hkL
    · exfalso
      have hk0 := h.right k hkis
      obtain ⟨w, hw, hwo⟩ := ((hpassed k hk0.1).resolve_left hns).resolve_left
        (fun hwh => hwh (hplain.node hk0.2 dir n))
      have hdo : d.bopaqueIndex = some w := by
        rcases h.extend.bopaqueIndex with heq | ⟨k', hk', _, hmark, _⟩
        · exact heq.trans hwo
        · have hk'0 := (h.right k' hk').2
          rcases hmark with hmark | hmark
          · exact absurd (hplain.node hk'0 dir n) hmark
          · have hnone := hplain.node (b := b) hk'0 (dir ++ [n]) unionfsDirOpaqueName
            rw [isOpaqueDir, show unionfsDirOpaque = allocWhname unionfsDirOpaqueName from rfl,
              hnone] at hmark
            simp at hmark
      obtain ⟨hge, hle'⟩ := List.mem_range'_1.mp (List.mem_filter.mp hk).1
      rw [hdo, clipBend] at hle'
      split_ifs at hle' <;> omega

/-! ## `check_empty` and `unionfs_rmdir` -/

theorem mem_stackList {s : Stack α} {k : Nat} {p : Path} {m : Text} :
    m ∈ s.list k p ↔ s.node k (p ++ [m]) ≠ none := by
  unfold Stack.list Stack.node
  cases s[k]? with
  | none => simp
  | some c => exact c.tree.mem_list p m

/-- The listings of all branches are of valid names and whiteouts. -/
theorem listing_live (hl : Live b rest) (k : Nat) (p : Path) :
    Listing (Stack.list (b :: rest) k p) := by
  unfold Stack.list
  cases hc : (b :: rest)[k]? with
  | none => exact ⟨fun e he => absurd he List.not_mem_nil, fun e he => absurd he List.not_mem_nil⟩
  | some c => exact (hl.proper c (List.mem_of_getElem? hc)).listing p

/-- What the listings show is what the merged directories show. -/
theorem shows_iff {s : Stack α} {p : Path} (hp : p.all isValidname = true) {L : List Nat}
    {m : Text} : Shows (fun k => s.list k p) L [] m ↔
      isValidname m = true ∧ found m (s.layerAt p) L ≠ [] := by
  have hentry : isValidname m = true → ∀ k, (s.layerAt p k).entry [m] = s.node k (p ++ [m]) :=
    fun hm k => s.layer_entry k (by simp [hp, hm])
  have hwh : isValidname m = true → ∀ k,
      (s.layerAt p k).whiteout [m] = (s.node k (p ++ [allocWhname m])).isSome :=
    fun hm k => s.layer_whiteout k (by simp [hp, hm])
  constructor
  · intro ⟨l, j, r, hsplit, hm, hmem, _, hleft⟩
    refine ⟨hm, found_ne_nil_iff.mpr ⟨l, j, r, hsplit, ?_, fun k hk => ?_⟩⟩
    · rw [hentry hm]
      exact mem_stackList.mp hmem
    · rw [hwh hm, Option.isSome_iff_ne_none]
      exact fun hk' => hleft k hk (mem_stackList.mpr hk')
  · intro ⟨hm, hfound⟩
    have ⟨l, j, r, hsplit, hmem, hleft⟩ := found_ne_nil_iff.mp hfound
    refine ⟨l, j, r, hsplit, hm, mem_stackList.mpr (by rwa [hentry hm] at hmem),
      fun node hn => absurd hn List.not_mem_nil, fun k hk hk' => ?_⟩
    refine hleft k hk ?_
    rw [hwh hm, Option.isSome_iff_ne_none]
    exact mem_stackList.mp hk'

/-- The removal of a directory is not refused but for a name in it; and a name in it is seen. -/
theorem checkEmpty_live (hl : Live b rest) (hn : isValidname n = true) {x : Inode α}
    (hx : x.isDir = true) {parent d0 d : Dentry α} {i : Nat} {is : List Nat}
    (h : Deleted b rest dir n x parent d0 d i is) :
    (∃ namelist, checkEmpty (b :: rest) (dir ++ [n]) d i = .ok namelist ∧
      (∀ m, unionView (b :: rest) (dir ++ [n] ++ [m]) = none) ∧
      (i = 0 → ∀ m, m ≠ [] → allocWhname m ∈ b.tree.list (dir ++ [n]) →
        ⟨m, 0, true⟩ ∈ namelist)) ∨
    checkEmpty (b :: rest) (dir ++ [n]) d i = .error .ENOTEMPTY ∧
      (Plain rest → ∃ m, unionView (b :: rest) (dir ++ [n] ++ [m]) ≠ none) := by
  have hp : (dir ++ [n]).all isValidname = true := by
    simp [valid_of_unionView h.present.isDir.ne_none, hn]
  obtain ⟨L, e, he, hpre, hfound, hplain⟩ := h.dirs hl hn hx
  rw [checkEmpty, he]
  simp only [checkEmptyLoop_filter (branches i _)]
  set M := (branches i (clipBend d.bopaqueIndex e)).filter d.hiddenDir with hM
  have his : ∀ k ∈ M, d.hiddenDir k = true := fun k hk => (List.mem_filter.mp hk).2
  have hlist : ∀ k ∈ M, Listing (Stack.list (b :: rest) k (dir ++ [n])) := fun k _ =>
    listing_live hl k _
  by_cases hb : ∃ m, Shows (fun k => Stack.list (b :: rest) k (dir ++ [n])) M [] m
  · obtain ⟨m, hm⟩ := hb
    refine .inr ⟨checkEmptyLoop_error his hlist hm, fun hp' => ?_⟩
    rw [hplain hp', shows_iff hp] at hm
    exact ⟨m, (hfound m hm.1).mpr hm.2⟩
  · obtain ⟨new, hrun, _, hwhs⟩ := checkEmptyLoop_ok his hlist (not_exists.mp hb)
    have hempty : ∀ m, unionView (b :: rest) (dir ++ [n] ++ [m]) = none := by
      intro m
      by_contra hshown
      have hm : isValidname m = true := by
        have := valid_of_unionView hshown
        rw [List.all_append, Bool.and_eq_true] at this
        simpa using this.2
      -- it shows in the first directories, and so in all that are read
      obtain ⟨l, j, r, hsplit, hj⟩ := (shows_iff hp).mpr ⟨hm, (hfound m hm).mp hshown⟩
      obtain ⟨t, ht⟩ := hpre
      exact hb ⟨m, l, j, r ++ t, by rw [← ht, hsplit, List.append_assoc, List.cons_append], hj⟩
    refine .inl ⟨new, hrun, hempty, fun hi m hm hw => ?_⟩
    subst hi
    have hhead : M.head? = some 0 := by
      have hrange : (branches 0 (clipBend d.bopaqueIndex e)) =
          0 :: List.range' 1 (clipBend d.bopaqueIndex e) := by
        rw [branches, Nat.sub_zero, List.range'_succ]
      have hdir0 : d.hiddenDir 0 = true := by
        rw [Dentry.hiddenDir, h.present.hiddenAt]
        exact hx
      rw [hM, hrange, List.filter_cons_of_pos hdir0, List.head?_cons]
    rcases hwhs 0 hhead m hm hw with ⟨node, hnode, _⟩ | hnode
    · exact absurd hnode List.not_mem_nil
    · exact hnode

/-- `delete_whiteouts` in the leftmost branch. -/
theorem deleteWhiteouts_live (hl : Live b rest) {t : Tree α} (p : Path)
    (hreg : ∀ m y, t.node (p ++ [allocWhname m]) = some y → y.isReg = true)
    (namelist : List FilldirNode) :
    ∃ t', deleteWhiteouts ({ b with tree := t } :: rest) p 0 namelist =
        .ok ({ b with tree := t' } :: rest) ∧
      t'.node = fun q => if ∃ c ∈ namelist, (c.bindex = 0 ∧ c.whiteout = true) ∧
        q = p ++ [allocWhname c.name] then none else t.node q := by
  rw [deleteWhiteouts, isRobranchSuper_zero hl]
  simp only [bind, Except.bind]
  induction namelist generalizing t with
  | nil => exact ⟨t, rfl, by simp⟩
  | cons c namelist ih =>
    rw [List.foldlM_cons]
    by_cases hc : c.bindex ≠ 0 ∨ c.whiteout = false
    · rw [if_pos hc]
      have ⟨t', hrun, hnode⟩ := ih hreg
      refine ⟨t', hrun, ?_⟩
      have hc' : ¬ (c.bindex = 0 ∧ c.whiteout = true) := by
        intro h
        rcases hc with hc | hc
        · exact hc h.1
        · simp [h.2] at hc
      rw [hnode]
      funext q
      simp only [List.mem_cons, exists_eq_or_imp, hc', false_and, false_or]
    · have hc' : c.bindex = 0 ∧ c.whiteout = true := by
        push Not at hc
        exact ⟨hc.1, by simpa using hc.2⟩
      rw [if_neg hc]
      cases hw : t.node (p ++ [allocWhname c.name]) with
      | none =>
        rw [node_zero, hw, if_neg (by simp)]
        have ⟨t', hrun, hnode⟩ := ih hreg
        refine ⟨t', hrun, ?_⟩
        rw [hnode]
        funext q
        simp only [List.mem_cons, exists_eq_or_imp, hc', and_self, true_and]
        by_cases hq : q = p ++ [allocWhname c.name]
        · simp [hq, hw]
        · simp only [hq, false_or]
      | some y =>
        have hnd : ¬ t.node.IsDirAt (p ++ [allocWhname c.name]) := by
          intro h
          have hreg' := hreg c.name y hw
          rw [Flat.IsDirAt, hw] at h
          cases y <;> simp_all [Inode.isReg, Inode.isDir]
        rw [node_zero, hw, if_pos (by simp), onTree_zero hl,
          Tree.vfsUnlink_ok (by rw [hw]; simp) hnd]
        set t1 := t.erase p (allocWhname c.name) (t.list_eq_nil hnd) with ht1
        have hnode : ∀ q, t1.node q = if q = p ++ [allocWhname c.name] then none else t.node q :=
          fun q => rfl
        have ⟨t', hrun, hnode'⟩ := ih (t := t1) fun m z hz => by
          rw [hnode] at hz
          split_ifs at hz
          exact hreg m z hz
        refine ⟨t', hrun, ?_⟩
        rw [hnode']
        funext q
        simp only [List.mem_cons, exists_eq_or_imp, hc', and_self, true_and, hnode]
        by_cases hq : q = p ++ [allocWhname c.name]
        · simp [hq]
        · simp only [hq, false_or, if_false]

/-- `unionfs_rmdir_first` of an empty directory that the leftmost branch has. -/
theorem unionfsRmdirFirst_live (hl : Live b rest) (hp : (dir ++ [n]).all isValidname = true)
    (hN : b.tree.node.IsDirAt (dir ++ [n]))
    (hempty : ∀ m, unionView (b :: rest) (dir ++ [n] ++ [m]) = none) {namelist : List FilldirNode}
    (hlist : ∀ m, m ≠ [] → allocWhname m ∈ b.tree.list (dir ++ [n]) → ⟨m, 0, true⟩ ∈ namelist) :
    ∃ t, unionfsRmdirFirst (b :: rest) dir n 0 namelist = .ok ({ b with tree := t } :: rest) ∧
      ∀ q, t.node q = if dir ++ [n] <+: q then none else b.tree.node q := by
  have hpr := hl.proper b List.mem_cons_self
  have ⟨t1, hrun, hnode⟩ := deleteWhiteouts_live hl (t := b.tree) (dir ++ [n])
    (fun m y => hpr.reg (dir ++ [n]) m y) namelist
  -- what is not below the directory stays
  have hsame : ∀ q, ¬ dir ++ [n] <+: q ∨ q = dir ++ [n] → t1.node q = b.tree.node q := by
    intro q hq
    rw [hnode]
    refine if_neg fun ⟨c, _, _, heq⟩ => ?_
    rcases hq with hq | hq
    · exact hq (heq ▸ List.prefix_append _ _)
    · simp [hq] at heq
  have hdir1 : t1.node.IsDirAt (dir ++ [n]) := by
    rw [Flat.IsDirAt, hsame _ (.inr rfl)]
    exact hN
  have hnil : t1.list (dir ++ [n]) = [] := by
    rw [List.eq_nil_iff_forall_not_mem]
    intro e he
    have he1 := (t1.mem_list _ e).mp he
    have he0 : b.tree.node (dir ++ [n] ++ [e]) ≠ none := by
      intro he0
      simp only [hnode, he0, ite_self] at he1
      exact he1 rfl
    rcases (hpr.listing (dir ++ [n])).names e ((b.tree.mem_list _ e).mpr he0) with hv | ⟨m, hm, hme⟩
    · have ⟨y, hy⟩ := Option.ne_none_iff_exists'.mp he0
      have hshown := unionView_of_node rest hpr (by
        rw [List.all_append, hp]
        simpa using hv) hy
      rw [hempty] at hshown
      simp at hshown
    · subst hme
      have hlisted := hlist m hm ((b.tree.mem_list _ _).mpr he0)
      rw [hnode] at he1
      exact he1 (if_pos ⟨_, hlisted, ⟨rfl, rfl⟩, rfl⟩)
  set t := t1.erase dir n hnil with ht
  have hrm : t1.vfsRmdir dir n = .ok t := by
    rw [Tree.vfsRmdir, if_neg hdir1.ne_none, if_pos hdir1, dif_pos hnil]
  have hrob := isRobranch_zero hl t1
  refine ⟨t, ?_, fun q => ?_⟩
  · rw [unionfsRmdirFirst]
    simp only [show deleteWhiteouts (b :: rest) (dir ++ [n]) 0 namelist =
      .ok ({ b with tree := t1 } :: rest) from hrun, hrob, bind, Except.bind, onTree_zero hl, hrm]
    rfl
  · have htp : t.node (dir ++ [n]) = none := if_pos rfl
    by_cases hq : dir ++ [n] <+: q
    · rw [if_pos hq]
      by_cases hqp : q = dir ++ [n]
      · rw [hqp, htp]
      · exact none_below t.closed (Flat.not_isDirAt htp) hq hqp
    · have hqp : q ≠ dir ++ [n] := fun heq => hq (heq ▸ List.prefix_refl _)
      rw [if_neg hq, ← hsame q (.inl hq)]
      exact if_neg hqp

/-- `unionfs_rmdir` removes an empty directory. It can refuse to only because of what is there
or, when branches to the right have whiteouts, of what they hide from the union. -/
theorem unionfsRmdir_live (hl : Live b rest) (hd : (unionView (b :: rest)).IsDirAt dir)
    (hn : isValidname n = true) {x : Inode α}
    (hV : unionView (b :: rest) (dir ++ [n]) = some x) (hx : x.isDir = true) (mark : α) :
    (∃ u, unionfsRmdir (b :: rest) dir n mark = .ok ({ b with tree := u } :: rest) ∧
      (∀ m, unionView (b :: rest) (dir ++ [n] ++ [m]) = none) ∧
      u.node = graftNode (copyNode b.tree.node (unionView (b :: rest)) dir) dir n none mark) ∨
    unionfsRmdir (b :: rest) dir n mark = .error .ENOTEMPTY ∧
      (Plain rest → ∃ m, unionView (b :: rest) (dir ++ [n] ++ [m]) ≠ none) := by
  have ⟨parent, d0, d, i, is, hdel, hf⟩ := deleted_live hl hd hn hV
  have h := hdel.present
  have hp : (dir ++ [n]).all isValidname = true := by simp [valid_of_unionView hd.ne_none, hn]
  rw [unionfsRmdir, hf]
  rcases checkEmpty_live hl hn hx hdel with ⟨namelist, hcheck, hempty, hwhs⟩ | ⟨hcheck, hshown⟩
  · left
    rw [hcheck]
    cases i with
    | zero =>
      have hx0 : b.tree.node (dir ++ [n]) = some x := (h.hidden 0 _ h.hiddenAt).1.symm
      have ⟨t, hfirst, hnode⟩ := unionfsRmdirFirst_live hl hp
        (by simp [Flat.IsDirAt, hx0, hx]) hempty (hwhs rfl)
      have ⟨u, hrun, hu⟩ := whiteout_of_zero_live hl h hn hnode mark 0
      refine ⟨u, ?_, hempty, hu⟩
      simp only [bind, Except.bind, hfirst]
      exact hrun
    | succ k =>
      have ⟨u, hrun, hu⟩ := whiteout_of_pos_live hl h hn (Nat.succ_ne_zero k) mark k
      have hfirst : unionfsRmdirFirst (b :: rest) dir n (k + 1) namelist = .error .EROFS := by
        rw [unionfsRmdirFirst, deleteWhiteouts, show isRobranchSuper (b :: rest) (k + 1) =
          .error .EROFS from isRobranchSuper_succ hl b.tree k]
        rfl
      refine ⟨u, ?_, hempty, hu⟩
      simp only [bind, Except.bind, hfirst]
      rw [if_neg (Nat.succ_ne_zero k), Nat.add_sub_cancel, hrun]
  · right
    rw [hcheck]
    exact ⟨rfl, hshown⟩

end Kernel
