import Backpack.Kernel.Lookup

/-!
# What a lookup finds

The branches whose entries a lookup collects are those that `Overlay.found` picks of the
parent's, so a walk along a path ends in the layers that the view has there.
-/

namespace Kernel

open Shell Overlay
open UnionFs (Path whPrefix)

variable {α : Type}

/-! ## Dentries of directories -/

/-- The hidden dentry of branch `i` is a directory. -/
def Dentry.hiddenDir (d : Dentry α) (i : Nat) : Bool := (d.hidden i).join.any Inode.isDir

/-- The branches whose directories belong to the dentry. -/
def Dentry.dirs (s : Stack α) (d : Dentry α) : List Nat :=
  (List.range s.length).filter d.hiddenDir

/-- The dentry of a directory at `p`, over branches from `b` to `e`. -/
structure IsDirDentry (s : Stack α) (p : Path) (d : Dentry α) (b e : Nat) : Prop where
  bstart : d.bstart = some b
  bend : d.bend = some e
  hidden : ∀ i x, d.hidden i = some x → b ≤ i ∧ i ≤ e ∧ i < s.length ∧ x = s.node i p ∧ x ≠ none
  first : ∃ x, d.hidden b = some (some x) ∧ x.isDir = true ∧ d.inode = some x

/-- Whiteouts are regular files. -/
def WhiteoutsReg (s : Stack α) : Prop :=
  ∀ i p n x, s.node i (p ++ [allocWhname n]) = some x → x.isReg = true

/-- A branch has a hidden directory when the inode it holds is one. -/
theorem Dentry.hiddenDir_iff {d : Dentry α} {i : Nat} :
    d.hiddenDir i = true ↔ ∃ a, d.hidden i = some (some (.dir a)) := by
  unfold Dentry.hiddenDir
  match d.hidden i with
  | none => simp
  | some none => simp
  | some (some (.dir a)) => simp [Inode.isDir]
  | some (some (.reg a)) => simp [Inode.isDir]
  | some (some (.other a)) => simp [Inode.isDir]

/-- Branches without the directory are passed over. -/
theorem lookupBranch_of_not_dir (s : Stack α) (mode : LookupMode) {parent : Dentry α}
    (dir : Path) (name : Text) {i : Nat} (h : ¬ parent.hiddenDir i = true) (st : LookupState α) :
    lookupBranch s mode parent dir name i st = .ok (st, .next) := by
  unfold lookupBranch
  have hnot : ∀ a, parent.hidden i ≠ some (some (.dir a)) := by
    intro a hhidden
    exact h (Dentry.hiddenDir_iff.mpr ⟨a, hhidden⟩)
  by_cases hskip : mode = .interposePartial ∧ (st.dentry.hidden i).isSome
  · rw [if_pos hskip]
  · rw [if_neg hskip]
    split
    · next a hhidden => exact absurd hhidden (hnot a)
    · rfl

/-- Only branches in which the parent is a directory are looked at. -/
theorem lookupLoop_filter (s : Stack α) (mode : LookupMode) (parent : Dentry α) (dir : Path)
    (name : Text) (is : List Nat) (st : LookupState α) :
    lookupLoop s mode parent dir name is st =
      lookupLoop s mode parent dir name (is.filter parent.hiddenDir) st := by
  induction is generalizing st with
  | nil => rfl
  | cons i is ih =>
    by_cases h : parent.hiddenDir i = true
    · rw [List.filter_cons_of_pos h, lookupLoop, lookupLoop]
      simp only [ih]
    · rw [List.filter_cons_of_neg h, lookupLoop, lookupBranch_of_not_dir s mode dir name h]
      exact ih st

/-- Only branches of the range are in question. -/
theorem filter_branches {P : Nat → Bool} {b e n : Nat}
    (h : ∀ i, P i = true → b ≤ i ∧ i ≤ e ∧ i < n) :
    (branches b e).filter P = (List.range n).filter P := by
  -- both are the filtered part of one longer list
  have left : (List.range b).filter P = [] := by
    rw [List.filter_eq_nil_iff]
    intro i hi hi'
    have hle := (h i hi').1
    have hlt := List.mem_range.mp hi
    omega
  have right : ∀ m k, (∀ i, P i = true → i < m) → (List.range' m k).filter P = [] := by
    intro m k hm
    rw [List.filter_eq_nil_iff]
    intro i hi hi'
    have hlt := hm i hi'
    have hle := (List.mem_range'_1.mp hi).1
    omega
  have hsplit : List.range (n + (e + 1)) = List.range n ++ List.range' n (e + 1) := by
    have hrange := List.range'_append_1 (s := 0) (m := n) (n := e + 1)
    rw [Nat.zero_add] at hrange
    rw [List.range_eq_range', List.range_eq_range', hrange]
  by_cases hb : b ≤ e + 1
  · have hsplit' : List.range (n + (e + 1)) =
        List.range b ++ (branches b e ++ List.range' (e + 1) n) := by
      have hlen : b + (e + 1 - b) = e + 1 := by omega
      rw [List.range_eq_range', List.range_eq_range', branches]
      have hend := List.range'_append_1 (s := b) (m := e + 1 - b) (n := n)
      rw [hlen] at hend
      rw [hend, show n + (e + 1) = b + (e + 1 - b + n) by omega]
      have hwhole := List.range'_append_1 (s := 0) (m := b) (n := e + 1 - b + n)
      rw [Nat.zero_add] at hwhole
      exact hwhole.symm
    have hfilter := congrArg (List.filter P) (hsplit.symm.trans hsplit')
    simp only [List.filter_append, left, List.nil_append] at hfilter
    rw [right n _ (fun i hi => (h i hi).2.2), right (e + 1) _ (fun i hi => by
      have := (h i hi).2.1
      omega)] at hfilter
    simpa using hfilter.symm
  · have hempty : branches b e = [] := by
      rw [branches, show e + 1 - b = 0 by omega]
      rfl
    rw [hempty, List.filter_nil]
    symm
    rw [List.filter_eq_nil_iff]
    intro i _ hi
    have hbounds := h i hi
    omega

/-! ## One lookup -/

section

variable {s : Stack α} {parent : Dentry α} {dir : Path} {name : Text} {i : Nat}

/-- The state after `bindex` was found to have the entry `x`. -/
def LookupState.take (st : LookupState α) (bindex : Nat) (x : Inode α) : LookupState α where
  dentry :=
    { st.dentry with
      bstart := st.dentry.bstart.or (some bindex)
      hidden := fun j => if j = bindex then some (some x) else st.dentry.hidden j
      bend := some bindex }
  dentryCount := st.dentryCount + 1
  firstDentryOffset := st.firstDentryOffset

/-- The state when the search ends in `bindex`, at a whiteout or an opaque directory. -/
def LookupState.stopAt (st : LookupState α) (bindex : Nat) : LookupState α :=
  { st with dentry := { st.dentry with bend := some bindex, bopaqueIndex := some bindex } }

/-- At a whiteout the loop stops. -/
theorem lookupBranch_whiteout (hp : parent.hiddenDir i = true) {x : Inode α}
    (hw : s.node i (dir ++ [allocWhname name]) = some x) (hx : x.isReg = true)
    (st : LookupState α) :
    lookupBranch s .interposeLookup parent dir name i st = .ok (st.stopAt i, .leave (some i)) := by
  have ⟨a, ha⟩ := Dentry.hiddenDir_iff.mp hp
  simp [lookupBranch, ha, hw, hx, LookupState.stopAt]

/-- A branch without the name is passed over, and the first one noted for a negative dentry. -/
theorem lookupBranch_absent (hp : parent.hiddenDir i = true)
    (hw : s.node i (dir ++ [allocWhname name]) = none) (hn : s.node i (dir ++ [name]) = none)
    (st : LookupState α) :
    lookupBranch s .interposeLookup parent dir name i st =
      .ok (if st.firstDentryOffset = none ∧ st.dentry.bstart = none then
        { st with firstDentryOffset := some i } else st, .next) := by
  have ⟨a, ha⟩ := Dentry.hiddenDir_iff.mp hp
  simp only [lookupBranch, ha, hw, hn]
  split_ifs <;> simp_all

/-- A directory is taken, and ends the loop when it is opaque. -/
theorem lookupBranch_dir (hp : parent.hiddenDir i = true)
    (hw : s.node i (dir ++ [allocWhname name]) = none) {x : Inode α}
    (hn : s.node i (dir ++ [name]) = some x) (hx : x.isDir = true) (st : LookupState α) :
    lookupBranch s .interposeLookup parent dir name i st =
      .ok (if isOpaqueDir s (dir ++ [name]) i then
        ((st.take i x).stopAt i, .leave (some i)) else (st.take i x, .next)) := by
  have ⟨a, ha⟩ := Dentry.hiddenDir_iff.mp hp
  simp only [lookupBranch, ha, hw, hn, hx, LookupState.take, LookupState.stopAt]
  split_ifs <;> simp_all

/-- A file is taken, and ends the loop when it is the first found. -/
theorem lookupBranch_file (hp : parent.hiddenDir i = true)
    (hw : s.node i (dir ++ [allocWhname name]) = none) {x : Inode α}
    (hn : s.node i (dir ++ [name]) = some x) (hx : x.isDir = false) (st : LookupState α) :
    lookupBranch s .interposeLookup parent dir name i st =
      .ok (st.take i x, if st.dentryCount = 0 then .leave none else .next) := by
  have ⟨a, ha⟩ := Dentry.hiddenDir_iff.mp hp
  simp only [lookupBranch, ha, hw, hn, hx, LookupState.take]
  split_ifs <;> simp_all

/-- The branches as layers in `dir`. -/
def Stack.layerAt (s : Stack α) (dir : Path) (i : Nat) : Layer Text α := (s.layer i).subAt dir

/-- The layer of a branch has a directory where the branch has one. -/
theorem layerAt_isDirAt (hdir : dir.all isValidname = true) (hname : isValidname name = true) :
    (s.layerAt dir i).entry.IsDirAt [name] ↔ (s.node i (dir ++ [name])).any Inode.isDir = true := by
  have h : (s.layerAt dir i).entry [name] = s.node i (dir ++ [name]) :=
    s.layer_entry i (by simp [hdir, hname])
  rw [Flat.IsDirAt, h]

/-- The directories below a name, branch after branch, as the loop meets them. -/
theorem below_layerAt (hdir : dir.all isValidname = true) (hname : isValidname name = true)
    (is : List Nat) :
    below name (s.layerAt dir) (i :: is) =
      if (s.node i (dir ++ [allocWhname name])).isSome then []
      else if (s.node i (dir ++ [name])).any Inode.isDir = true then
        i :: if isOpaqueDir s (dir ++ [name]) i then [] else below name (s.layerAt dir) is
      else below name (s.layerAt dir) is := by
  have hwhiteout : (s.layerAt dir i).whiteout [name] =
      (s.node i (dir ++ [allocWhname name])).isSome :=
    s.layer_whiteout i (by simp [hdir, hname])
  have hclosed : (s.layerAt dir i).closedOff [name] = isOpaqueDir s (dir ++ [name]) i :=
    s.layer_closedOff i (by simp [hdir, hname])
  simp only [below, hwhiteout, hclosed, layerAt_isDirAt hdir hname]

/-- What is found of a name, branch after branch, as the loop meets it. -/
theorem found_layerAt (hdir : dir.all isValidname = true) (hname : isValidname name = true)
    (is : List Nat) :
    found name (s.layerAt dir) (i :: is) =
      if (s.node i (dir ++ [allocWhname name])).isSome then []
      else if (s.node i (dir ++ [name])).any Inode.isDir = true then
        i :: if isOpaqueDir s (dir ++ [name]) i then [] else below name (s.layerAt dir) is
      else if s.node i (dir ++ [name]) = none then found name (s.layerAt dir) is
      else [i] := by
  have hwhiteout : (s.layerAt dir i).whiteout [name] =
      (s.node i (dir ++ [allocWhname name])).isSome :=
    s.layer_whiteout i (by simp [hdir, hname])
  have hclosed : (s.layerAt dir i).closedOff [name] = isOpaqueDir s (dir ++ [name]) i :=
    s.layer_closedOff i (by simp [hdir, hname])
  have hentry : (s.layerAt dir i).entry [name] = s.node i (dir ++ [name]) :=
    s.layer_entry i (by simp [hdir, hname])
  simp only [found, hwhiteout, hclosed, hentry, layerAt_isDirAt hdir hname]

end

/-- The loop after a first directory was found: it goes on to the directories below. -/
theorem lookupLoop_below {s : Stack α} (hreg : WhiteoutsReg s) {parent : Dentry α} {dir : Path}
    {name : Text} (hdir : dir.all isValidname = true) (hname : isValidname name = true)
    {is : List Nat} (his : ∀ i ∈ is, parent.hiddenDir i = true) (st : LookupState α) {e : Nat}
    (hsorted : (e :: is).Pairwise (· < ·)) (hcount : st.dentryCount ≠ 0)
    (hstart : st.dentry.bstart.isSome) (hend : st.dentry.bend = some e)
    (hhid : ∀ j x, st.dentry.hidden j = some x → j ≤ e) :
    ∃ st' stop e', lookupLoop s .interposeLookup parent dir name is st = .ok (st', stop) ∧
      st'.dentryCount ≠ 0 ∧ st'.dentry.bstart = st.dentry.bstart ∧
      st'.dentry.bend = some e' ∧ e ≤ e' ∧
      (∀ j x, st'.dentry.hidden j = some x → j ≤ e' ∧ (st.dentry.hidden j = some x ∨
        j ∈ is ∧ x = s.node j (dir ++ [name]) ∧ x ≠ none)) ∧
      (∀ j, j ≤ e → st'.dentry.hidden j = st.dentry.hidden j) ∧
      ∀ j, st'.dentry.hiddenDir j = true ↔
        st.dentry.hiddenDir j = true ∨ j ∈ below name (s.layerAt dir) is := by
  induction is generalizing st e with
  | nil =>
    exact ⟨st, none, e, rfl, hcount, rfl, hend, le_refl e,
      fun j x hj => ⟨hhid j x hj, .inl hj⟩, fun j _ => rfl, fun j => by simp [below]⟩
  | cons i is ih =>
    have hei : e < i := (List.pairwise_cons.mp hsorted).1 i List.mem_cons_self
    have hsorted' := (List.pairwise_cons.mp hsorted).2
    have hesorted : (e :: is).Pairwise (· < ·) :=
      List.pairwise_cons.mpr ⟨fun j hj => (List.pairwise_cons.mp hsorted).1 j
        (List.mem_cons_of_mem i hj), (List.pairwise_cons.mp hsorted').2⟩
    have hp := his i List.mem_cons_self
    have his' : ∀ j ∈ is, parent.hiddenDir j = true := fun j hj => his j (List.mem_cons_of_mem i hj)
    have hii : st.dentry.hidden i = none := by
      by_contra h
      obtain ⟨x, hx⟩ := Option.ne_none_iff_exists'.mp h
      have := hhid i x hx
      omega
    have htake : ∀ x, (st.take i x).dentry.bstart = st.dentry.bstart := by
      intro x
      obtain ⟨b, hb⟩ := Option.isSome_iff_exists.mp hstart
      simp [LookupState.take, hb]
    rw [below_layerAt hdir hname, lookupLoop]
    cases hw : s.node i (dir ++ [allocWhname name]) with
    | some x =>
      rw [lookupBranch_whiteout hp hw (hreg _ _ _ _ hw)]
      refine ⟨st.stopAt i, some i, i, rfl, hcount, rfl, rfl, hei.le, fun j x hj => ?_,
        fun j _ => rfl, fun j => ?_⟩
      · have := hhid j x hj
        exact ⟨by omega, .inl hj⟩
      · simp [LookupState.stopAt, Dentry.hiddenDir]
    | none =>
      cases hn : s.node i (dir ++ [name]) with
      | none =>
        have hst : st.dentry.bstart ≠ none := Option.isSome_iff_ne_none.mp hstart
        rw [lookupBranch_absent hp hw hn, if_neg (fun h => hst h.2)]
        obtain ⟨st', stop, e', hloop, hcount', hbstart, hbend, hle, hback, hsame, hdirs⟩ :=
          ih his' st hesorted hcount hstart hend hhid
        refine ⟨st', stop, e', hloop, hcount', hbstart, hbend, hle, fun j x hj => ?_, hsame, ?_⟩
        · obtain ⟨hje, hcase⟩ := hback j x hj
          exact ⟨hje, hcase.imp id fun h => ⟨List.mem_cons_of_mem i h.1, h.2⟩⟩
        · simpa using hdirs
      | some x =>
        have hhid' : ∀ j y, (st.take i x).dentry.hidden j = some y → j ≤ i := by
          intro j y hj
          by_cases hji : j = i
          · omega
          · have := hhid j y (by simpa [LookupState.take, hji] using hj)
            omega
        have hle : ∀ j, j ≤ e → (st.take i x).dentry.hidden j = st.dentry.hidden j := by
          intro j hj
          have : j ≠ i := by omega
          simp [LookupState.take, this]
        have hback : ∀ j y, (st.take i x).dentry.hidden j = some y →
            st.dentry.hidden j = some y ∨
              j ∈ i :: is ∧ y = s.node j (dir ++ [name]) ∧ y ≠ none := by
          intro j y hj
          by_cases hji : j = i
          · subst hji
            simp only [LookupState.take, if_true, Option.some.injEq] at hj
            exact .inr ⟨List.mem_cons_self, by rw [hn, hj], by simp [← hj]⟩
          · exact .inl (by simpa [LookupState.take, hji] using hj)
        have hdirs : ∀ j, (st.take i x).dentry.hiddenDir j = true ↔
            st.dentry.hiddenDir j = true ∨ j = i ∧ x.isDir = true := by
          intro j
          by_cases hji : j = i
          · subst hji
            simp [LookupState.take, Dentry.hiddenDir, hii]
          · simp [LookupState.take, Dentry.hiddenDir, hji]
        have hstart' : (st.take i x).dentry.bstart.isSome := by rwa [htake]
        by_cases hx : x.isDir = true ∧ isOpaqueDir s (dir ++ [name]) i = true
        · rw [lookupBranch_dir hp hw hn hx.1, if_pos hx.2]
          refine ⟨(st.take i x).stopAt i, some i, i, rfl, Nat.succ_ne_zero _, htake x, rfl, hei.le,
            fun j y hj => ⟨hhid' j y hj, hback j y hj⟩, hle, fun j => ?_⟩
          rw [show ((st.take i x).stopAt i).dentry.hiddenDir j = (st.take i x).dentry.hiddenDir j
            from rfl, hdirs]
          simp [hx.1, hx.2]
        · -- the loop goes on, with one directory or one passed over file more
          have hstep : lookupBranch s .interposeLookup parent dir name i st =
              .ok (st.take i x, .next) := by
            cases hx' : x.isDir with
            | true => rw [lookupBranch_dir hp hw hn hx', if_neg (fun h => hx ⟨hx', h⟩)]
            | false => rw [lookupBranch_file hp hw hn hx', if_neg hcount]
          rw [hstep]
          obtain ⟨st', stop, e', hloop, hcount', hbstart, hbend, hle', hkept, hsame, hdirs'⟩ :=
            ih his' (st.take i x) hsorted' (Nat.succ_ne_zero _) hstart' rfl hhid'
          refine ⟨st', stop, e', hloop, hcount', hbstart.trans (htake x), hbend, by omega,
            fun j y hj => ?_, fun j hj => ?_, fun j => ?_⟩
          · obtain ⟨hje, hcase⟩ := hkept j y hj
            refine ⟨hje, ?_⟩
            rcases hcase with h | h
            · exact hback j y h
            · exact .inr ⟨List.mem_cons_of_mem i h.1, h.2⟩
          · rw [hsame j (by omega), hle j hj]
          · rw [hdirs', hdirs]
            cases hx' : x.isDir with
            | true =>
              have hop : isOpaqueDir s (dir ++ [name]) i = false := by simpa [hx'] using hx
              simp [hx', hop, or_assoc]
            | false => simp [hx']

/-- The dentry of something that is not a directory, in branch `b`. -/
def fileDentry (x : Inode α) (b : Nat) : Dentry α where
  inode := some x
  bstart := some b
  bend := some b
  bopaqueIndex := none
  hidden j := if j = b then some (some x) else none

/-- A negative dentry at `p`, with its place in branch `b`. -/
structure IsNegDentry (s : Stack α) (p : Path) (d : Dentry α) (b : Nat) : Prop where
  inode : d.inode = none
  bstart : d.bstart = some b
  bend : d.bend = some b
  hidden : ∀ j, d.hidden j = if j = b then some (s.node b p) else none

/-- How the lookup of a new dentry in the branches `is` can end. -/
inductive LookupEnd (s : Stack α) (dir : Path) (name : Text) (is : List Nat) (fo : Option Nat) :
    LookupState α → Option Nat → Prop
  | dir (st' stop) (b e : Nat) (x : Inode α) (r : List Nat)
      (hfound : found name (s.layerAt dir) is = b :: r) (hcount : st'.dentryCount ≠ 0)
      (hbstart : st'.dentry.bstart = some b) (hbend : st'.dentry.bend = some e)
      (hfirst : st'.dentry.hidden b = some (some x)) (hx : x.isDir = true)
      (hhidden : ∀ j y, st'.dentry.hidden j = some y →
        b ≤ j ∧ j ≤ e ∧ j ∈ is ∧ y = s.node j (dir ++ [name]) ∧ y ≠ none)
      (hdirs : ∀ j, st'.dentry.hiddenDir j = true ↔ j ∈ b :: r) :
      LookupEnd s dir name is fo st' stop
  | file (st' stop) (b : Nat) (x : Inode α) (hfound : found name (s.layerAt dir) is = [b])
      (hx : x.isDir = false) (hnode : s.node b (dir ++ [name]) = some x)
      (hcount : st'.dentryCount ≠ 0)
      (hd : st'.dentry = { fileDentry x b with inode := none }) :
      LookupEnd s dir name is fo st' stop
  | negative (st' stop) (hfound : found name (s.layerAt dir) is = []) (hcount : st'.dentryCount = 0)
      (hinode : st'.dentry.inode = none)
      (hfo : st'.firstDentryOffset.or stop = fo.or is.head?) : LookupEnd s dir name is fo st' stop

/-- The loop over the branches finds what the layers have. -/
theorem lookupLoop_found {s : Stack α} (hreg : WhiteoutsReg s) {parent : Dentry α} {dir : Path}
    {name : Text} (hdir : dir.all isValidname = true) (hname : isValidname name = true)
    {is : List Nat} (his : ∀ i ∈ is, parent.hiddenDir i = true) (hsorted : is.Pairwise (· < ·))
    (fo : Option Nat) :
    ∃ st' stop, lookupLoop s .interposeLookup parent dir name is
        ⟨⟨none, none, none, none, fun _ => none⟩, 0, fo⟩ = .ok (st', stop) ∧
      LookupEnd s dir name is fo st' stop := by
  induction is generalizing fo with
  | nil => exact ⟨_, none, rfl, .negative _ _ rfl rfl rfl (by simp)⟩
  | cons i is ih =>
    have hp := his i List.mem_cons_self
    have his' : ∀ j ∈ is, parent.hiddenDir j = true := fun j hj => his j (List.mem_cons_of_mem i hj)
    have hsorted' := (List.pairwise_cons.mp hsorted).2
    have hfound := found_layerAt (s := s) (i := i) hdir hname is
    set st : LookupState α := ⟨⟨none, none, none, none, fun _ => none⟩, 0, fo⟩ with hst
    rw [lookupLoop]
    cases hw : s.node i (dir ++ [allocWhname name]) with
    | some x =>
      rw [lookupBranch_whiteout hp hw (hreg _ _ _ _ hw)]
      refine ⟨st.stopAt i, some i, rfl, .negative _ _ ?_ rfl rfl rfl⟩
      rw [hfound, hw]
      rfl
    | none =>
      cases hn : s.node i (dir ++ [name]) with
      | none =>
        have hf : found name (s.layerAt dir) (i :: is) = found name (s.layerAt dir) is := by
          rw [hfound, hw, hn]
          rfl
        have hfo : (if st.firstDentryOffset = none ∧ st.dentry.bstart = none then
            { st with firstDentryOffset := some i } else st) =
            ⟨⟨none, none, none, none, fun _ => none⟩, 0, fo.or (some i)⟩ := by
          cases fo <;> simp [hst]
        rw [lookupBranch_absent hp hw hn, hfo]
        have ⟨st', stop, hloop, hend⟩ := ih his' hsorted' (fo.or (some i))
        refine ⟨st', stop, hloop, ?_⟩
        cases hend with
        | dir b e x r hrest hcount hbstart hbend hfirst hx hhidden hdirs =>
          refine .dir _ _ b e x r (hf.trans hrest) hcount hbstart hbend hfirst hx
            (fun j y hj => ?_) hdirs
          have ⟨hbj, hje, hmem, hnode⟩ := hhidden j y hj
          exact ⟨hbj, hje, List.mem_cons_of_mem i hmem, hnode⟩
        | file b x hrest hx hnode hcount hd =>
          exact .file _ _ b x (hf.trans hrest) hx hnode hcount hd
        | negative hrest hcount hinode hfo =>
          refine .negative _ _ (hf.trans hrest) hcount hinode (hfo.trans ?_)
          cases fo <;> simp
      | some x =>
        cases hx : x.isDir with
        | false =>
          rw [lookupBranch_file hp hw hn hx]
          refine ⟨st.take i x, none, rfl, .file _ _ i x ?_ hx hn (Nat.succ_ne_zero _) ?_⟩
          · rw [hfound, hw, hn]
            simp [hx]
          · simp [LookupState.take, hst, fileDentry]
        | true =>
          have hhid : ∀ j y, (st.take i x).dentry.hidden j = some y → j = i ∧ y = some x := by
            intro j y hj
            by_cases hji : j = i
            · exact ⟨hji, by simpa [LookupState.take, hji] using hj.symm⟩
            · simp [LookupState.take, hji, hst] at hj
          have hself : (st.take i x).dentry.hidden i = some (some x) := by simp [LookupState.take]
          have hdirs : ∀ j, (st.take i x).dentry.hiddenDir j = true ↔ j = i := by
            intro j
            by_cases hji : j = i
            · simp [LookupState.take, Dentry.hiddenDir, hji, hx]
            · simp [LookupState.take, Dentry.hiddenDir, hji, hst]
          rw [lookupBranch_dir hp hw hn hx]
          by_cases hop : isOpaqueDir s (dir ++ [name]) i = true
          · rw [if_pos hop]
            refine ⟨(st.take i x).stopAt i, some i, rfl, .dir _ _ i i x [] ?_ (Nat.succ_ne_zero _)
              rfl rfl hself hx (fun j y hj => ?_) (fun j => ?_)⟩
            · rw [hfound, hw, hn]
              simp [hx, hop]
            · have ⟨hji, hy⟩ := hhid j y hj
              subst hji
              exact ⟨le_refl j, le_refl j, List.mem_cons_self, by rw [hn, hy], by simp [hy]⟩
            · rw [List.mem_singleton]
              exact hdirs j
          · rw [if_neg hop]
            have ⟨st', stop, e', hloop, hcount, hbstart, hbend, hle, hback, hsame, hdirs'⟩ :=
              lookupLoop_below hreg hdir hname his' (st.take i x) (e := i) hsorted
                (Nat.succ_ne_zero _) rfl rfl (fun j y hj => (hhid j y hj).1.le)
            refine ⟨st', stop, hloop, .dir _ _ i e' x (below name (s.layerAt dir) is) ?_ hcount
              hbstart hbend ?_ hx (fun j y hj => ?_) (fun j => ?_)⟩
            · rw [hfound, hw, hn]
              simp [hx, hop]
            · rw [hsame i (le_refl i), hself]
            · have ⟨hje, hcase⟩ := hback j y hj
              rcases hcase with hfirst | ⟨hmem, hnode, hsome⟩
              · have ⟨hji, hy⟩ := hhid j y hfirst
                subst hji
                exact ⟨le_refl j, hje, List.mem_cons_self, by rw [hn, hy], by simp [hy]⟩
              · exact ⟨((List.pairwise_cons.mp hsorted).1 j hmem).le, hje,
                  List.mem_cons_of_mem i hmem, hnode, hsome⟩
            · rw [hdirs', hdirs, List.mem_cons]

/-- A part of a list, as a filter of it. -/
theorem filter_eq_of_sublist {l' l : List Nat} (h : l'.Sublist l) (hn : l.Nodup) {P : Nat → Bool}
    (hP : ∀ j, P j = true ↔ j ∈ l') : l.filter P = l' := by
  have hself : l' = l'.filter P := by
    symm
    rw [List.filter_eq_self]
    exact fun j hj => (hP j).mpr hj
  have hsub : (l'.filter P).Sublist (l.filter P) := h.filter P
  rw [← hself] at hsub
  refine (hsub.eq_of_length_le ?_).symm
  -- the filtered list has no more members than `l'`
  refine ((hn.filter P).subperm fun j hj => ?_).length_le
  exact (hP j).mp (List.mem_filter.mp hj).2

theorem IsDirDentry.dirs_pairwise (s : Stack α) (d : Dentry α) :
    (d.dirs s).Pairwise (· < ·) :=
  List.Pairwise.filter _ List.pairwise_lt_range

/-- The branches of a directory lie between its ends. -/
theorem IsDirDentry.lt_of_hiddenDir {s : Stack α} {p : Path} {d : Dentry α} {b e : Nat}
    (h : IsDirDentry s p d b e) {i : Nat} (hi : d.hiddenDir i = true) :
    b ≤ i ∧ i ≤ e ∧ i < s.length := by
  have ⟨a, ha⟩ := Dentry.hiddenDir_iff.mp hi
  have ⟨hlow, hhigh, hlt, _⟩ := h.hidden i _ ha
  exact ⟨hlow, hhigh, hlt⟩

/-- The first branch of a directory is `bstart`. -/
theorem IsDirDentry.dirs_head {s : Stack α} {p : Path} {d : Dentry α} {b e : Nat}
    (h : IsDirDentry s p d b e) : (d.dirs s).head? = some b := by
  have ⟨x, hhidden, hisdir, _⟩ := h.first
  have hb : b ∈ d.dirs s := by
    rw [Dentry.dirs, List.mem_filter, List.mem_range]
    exact ⟨(h.hidden b _ hhidden).2.2.1, by simp [Dentry.hiddenDir, hhidden, hisdir]⟩
  cases hlist : d.dirs s with
  | nil => simp [hlist] at hb
  | cons c r =>
    have hc : c ∈ d.dirs s := by simp [hlist]
    have hle := (h.lt_of_hiddenDir (List.mem_filter.mp hc).2).1
    have hpairwise := IsDirDentry.dirs_pairwise s d
    rw [hlist] at hpairwise hb
    rcases List.mem_cons.mp hb with hbc | hbc
    · simp [hbc]
    · have := (List.pairwise_cons.mp hpairwise).1 b hbc
      omega

/-- The loop looks at the branches that have the directory. -/
theorem IsDirDentry.lookupLoop_eq {s : Stack α} {p : Path} {d : Dentry α} {b e : Nat}
    (h : IsDirDentry s p d b e) (mode : LookupMode) (dir : Path) (name : Text)
    (st : LookupState α) :
    lookupLoop s mode d dir name (branches b e) st =
      lookupLoop s mode d dir name (d.dirs s) st := by
  rw [lookupLoop_filter, filter_branches (fun i hi => h.lt_of_hiddenDir hi), Dentry.dirs]

/-- A lookup gives a directory, a file or a negative dentry, as the layers have it. -/
theorem unionfsLookupBackend_spec {s : Stack α} (hreg : WhiteoutsReg s) {d : Dentry α} {dir : Path}
    {b e : Nat} (hd : IsDirDentry s dir d b e) (hdir : dir.all isValidname = true) {name : Text}
    (hname : isValidname name = true) :
    ∃ d', unionfsLookupBackend s d dir name = .ok d' ∧
      ((∃ b' e', b ≤ b' ∧ IsDirDentry s (dir ++ [name]) d' b' e' ∧
          d'.dirs s = found name (s.layerAt dir) (d.dirs s)) ∨
        (∃ b' x, b ≤ b' ∧ d' = fileDentry x b' ∧ x.isDir = false ∧
          s.node b' (dir ++ [name]) = some x ∧ found name (s.layerAt dir) (d.dirs s) = [b']) ∨
        IsNegDentry s (dir ++ [name]) d' b ∧ found name (s.layerAt dir) (d.dirs s) = []) := by
  have hge : ∀ i ∈ d.dirs s, b ≤ i := fun i hi => (hd.lt_of_hiddenDir (List.mem_filter.mp hi).2).1
  have his : ∀ i ∈ d.dirs s, d.hiddenDir i = true := fun i hi => (List.mem_filter.mp hi).2
  have ⟨st, stop, hloop, hend⟩ :=
    lookupLoop_found hreg hdir hname his (IsDirDentry.dirs_pairwise s d) none
  have hsub := found_sublist name (s.layerAt dir) (d.dirs s)
  have hmem : ∀ i ∈ found name (s.layerAt dir) (d.dirs s), b ≤ i ∧ i < s.length := by
    intro i hi
    have hi' := hsub.subset hi
    exact ⟨hge i hi', List.mem_range.mp (List.mem_filter.mp hi').1⟩
  unfold unionfsLookupBackend
  rw [hname, hd.bstart, hd.bend]
  simp only [hd.lookupLoop_eq, hloop]
  cases hend with
  | dir b' e' x r hfound hcount hbstart hbend hfirst hx hhidden hdirs =>
    refine ⟨_, if_neg hcount, .inl ⟨b', e', ?_,
      ⟨hbstart, hbend, fun i y hy => ?_, ⟨x, hfirst, hx, ?_⟩⟩, ?_⟩⟩
    · exact (hmem b' (by simp [hfound])).1
    · have ⟨hbi, hie, hi, hnode, hsome⟩ := hhidden i y hy
      exact ⟨hbi, hie, List.mem_range.mp (List.mem_filter.mp hi).1, hnode, hsome⟩
    · simp [hbstart, hfirst]
    · rw [Dentry.dirs, hfound]
      refine filter_eq_of_sublist ?_ List.nodup_range hdirs
      exact hfound ▸ hsub.trans List.filter_sublist
  | file b' x hfound hx hnode hcount hfile =>
    refine ⟨_, if_neg hcount,
      .inr (.inl ⟨b', x, (hmem b' (by simp [hfound])).1, ?_, hx, hnode, hfound⟩)⟩
    simp [hfile, fileDentry]
  | negative hfound hcount hinode hfo =>
    refine ⟨_, if_pos hcount, .inr (.inr ⟨?_, hfound⟩)⟩
    rw [hfo, hd.dirs_head]
    exact ⟨hinode, rfl, rfl, fun j => rfl⟩

/-! ## Walks along a path -/

theorem Stack.layer_isClosed (s : Stack α) (i : Nat) : (s.layer i).Closed := by
  unfold Stack.layer
  cases s[i]? with
  | none => exact ⟨fun p n h => absurd rfl h, fun p n h => by simp [Layer.void] at h,
      fun p h => by simp [Layer.void] at h⟩
  | some b => exact b.tree.layer_closed

theorem Stack.layerAt_closed (s : Stack α) (dir : Path) (i : Nat) : (s.layerAt dir i).Closed := by
  have h := s.layer_isClosed i
  refine ⟨fun p n hn => ?_, fun p n hn => ?_, fun p hp => ?_⟩
  · exact h.entry (dir ++ p) n (by simpa [Stack.layerAt, Layer.subAt] using hn)
  · exact h.whiteout (dir ++ p) n (by simpa [Stack.layerAt, Layer.subAt] using hn)
  · exact h.closedOff (dir ++ p) hp

/-- At the directory itself a layer has what the branch has. -/
theorem layerAt_entry_nil (s : Stack α) {dir : Path} (hdir : dir.all isValidname = true) (i : Nat) :
    (s.layerAt dir i).entry [] = s.node i dir := by
  show (s.layer i).entry (dir ++ []) = _
  rw [List.append_nil, s.layer_entry i hdir]

/-- What the union shows in a directory, from its dentry. -/
def Dentry.view (s : Stack α) (dir : Path) (d : Dentry α) : Flat Text α :=
  Overlay.view ((d.dirs s).map (s.layerAt dir))

/-- The layers below a name are those of the branches found. -/
theorem children_layerAt (s : Stack α) (dir : Path) (n : Text) (is : List Nat) :
    children (is.map (s.layerAt dir)) n =
      (found n (s.layerAt dir) is).map (s.layerAt (dir ++ [n])) := by
  have h := found_map n id (s.layerAt dir) is
  rw [children, ← h, List.map_map]
  apply List.map_congr_left
  intro i _
  exact (s.layer i).sub_subAt dir n

section

variable {s : Stack α} {d : Dentry α} {dir : Path} {b e : Nat}

theorem IsDirDentry.isDirAt_nil (hd : IsDirDentry s dir d b e)
    (hdir : dir.all isValidname = true) : (d.view s dir).IsDirAt [] := by
  have ⟨x, hhidden, hisdir, _⟩ := hd.first
  have hnode : s.node b dir = some x := (hd.hidden b _ hhidden).2.2.2.1.symm
  have hhead := hd.dirs_head
  cases hlist : d.dirs s with
  | nil => simp [hlist] at hhead
  | cons c r =>
    rw [hlist, List.head?_cons, Option.some.injEq] at hhead
    rw [Dentry.view, hlist, hhead, List.map_cons, Flat.IsDirAt, view_cons_nil,
      layerAt_entry_nil s hdir, hnode]
    exact hisdir

/-- What a directory shows is closed. -/
theorem IsDirDentry.view_closed (hd : IsDirDentry s dir d b e)
    (hdir : dir.all isValidname = true) : (d.view s dir).Closed := by
  refine Overlay.view_closed (fun t ht => ?_) fun t _ _ => hd.isDirAt_nil hdir
  have ⟨i, _, h⟩ := List.mem_map.mp ht
  exact h ▸ s.layerAt_closed dir i

/-- What the union shows below a name is what it shows from the dentry that the lookup finds. -/
theorem Dentry.view_cons (s : Stack α) (dir : Path) (d : Dentry α) (n : Text) (p : Path) :
    d.view s dir (n :: p) =
      Overlay.view ((found n (s.layerAt dir) (d.dirs s)).map (s.layerAt (dir ++ [n]))) p := by
  rw [Dentry.view, Overlay.view_cons, children_layerAt]

theorem IsDirDentry.ne_root (hd : IsDirDentry s dir d b e) : ∃ a, d.inode = some (.dir a) := by
  have ⟨x, _, hisdir, hinode⟩ := hd.first
  cases x with
  | dir a => exact ⟨a, hinode⟩
  | reg a => simp [Inode.isDir] at hisdir
  | other a => simp [Inode.isDir] at hisdir

/-- A path is looked up name by name. -/
theorem pathLookup_cons (hd : IsDirDentry s dir d b e) (n : Text) (p : Path) :
    pathLookup s dir d (n :: p) =
      (unionfsLookupBackend s d dir n).bind fun c => pathLookup s (dir ++ [n]) c p := by
  have ⟨a, ha⟩ := hd.ne_root
  rw [pathLookup, ha]
  rfl

/-- A file shows itself and nothing below it. -/
theorem view_file {x : Inode α} (hx : x.isDir = false) (hdir : dir.all isValidname = true)
    (hb : s.node b dir = some x) (p : Path) :
    Overlay.view [s.layerAt dir b] p = if p = [] then some x else none := by
  by_cases hp : p = []
  · simp [hp, layerAt_entry_nil s hdir, hb]
  · rw [if_neg hp]
    have hcl : (Overlay.view [s.layerAt dir b]).Closed := by
      refine Overlay.view_closed (fun t ht => ?_) fun t ht h => ?_
      · exact List.mem_singleton.mp ht ▸ s.layerAt_closed dir b
      · exact List.mem_singleton.mp ht ▸ h
    refine hcl.none_append (p := []) hp ?_
    simp [Flat.IsDirAt, layerAt_entry_nil s hdir, hb, hx]

/-- The walk to a directory of the union. -/
theorem pathLookup_dir (hreg : WhiteoutsReg s) (hd : IsDirDentry s dir d b e)
    (hdir : dir.all isValidname = true) {p : Path} (hp : p.all isValidname = true)
    (hv : (d.view s dir).IsDirAt p) :
    ∃ d' b' e', pathLookup s dir d p = .ok d' ∧ b ≤ b' ∧ IsDirDentry s (dir ++ p) d' b' e' ∧
      ∀ r, d'.view s (dir ++ p) r = d.view s dir (p ++ r) := by
  induction p generalizing d dir b e with
  | nil => exact ⟨d, b, e, rfl, le_refl b, by rwa [List.append_nil], fun r => by simp⟩
  | cons n p ih =>
    rw [List.all_cons, Bool.and_eq_true] at hp
    have ⟨child, hlook, hchild⟩ := unionfsLookupBackend_spec hreg hd hdir hp.1
    have hdirn : (dir ++ [n]).all isValidname = true := by simp [hdir, hp.1]
    have hstep : pathLookup s dir d (n :: p) = pathLookup s (dir ++ [n]) child p := by
      rw [pathLookup_cons hd, hlook]
      rfl
    rw [Flat.IsDirAt, Dentry.view_cons] at hv
    rcases hchild with ⟨b₁, e₁, hle, hdird, hdirs⟩ | ⟨b₁, x, _, _, hfile, hnode, hone⟩ | ⟨_, hnone⟩
    · have hview : ∀ r, child.view s (dir ++ [n]) r = d.view s dir (n :: r) := by
        intro r
        rw [Dentry.view_cons, Dentry.view, hdirs]
      have hvn : (child.view s (dir ++ [n])).IsDirAt p := by
        rw [Flat.IsDirAt, hview, Dentry.view_cons]
        exact hv
      have ⟨d', b', e', hrest, hle', hdird', hview'⟩ := ih hdird hdirn hp.2 hvn
      refine ⟨d', b', e', hstep.trans hrest, by omega, by simpa using hdird', fun r => ?_⟩
      rw [show dir ++ n :: p = dir ++ [n] ++ p by simp, hview', hview]
      rfl
    · rw [hone, List.map_singleton, view_file hfile hdirn hnode] at hv
      split_ifs at hv
      · simp [hfile] at hv
      · simp at hv
    · rw [hnone, List.map_nil, Overlay.view_nil] at hv
      simp at hv

end

/-- A path may be looked up in two parts. -/
theorem pathLookup_append (s : Stack α) (dir : Path) (d : Dentry α) (p q : Path) :
    pathLookup s dir d (p ++ q) =
      (pathLookup s dir d p).bind fun c => pathLookup s (dir ++ p) c q := by
  induction p generalizing dir d with
  | nil => simp [pathLookup, Except.bind]
  | cons n p ih =>
    rw [List.cons_append, pathLookup, pathLookup]
    match d.inode with
    | none => rfl
    | some (.reg a) => rfl
    | some (.other a) => rfl
    | some (.dir a) =>
      show (unionfsLookupBackend s d dir n).bind (fun c => pathLookup s (dir ++ [n]) c (p ++ q)) =
        ((unionfsLookupBackend s d dir n).bind fun c => pathLookup s (dir ++ [n]) c p).bind
          fun c => pathLookup s (dir ++ n :: p) c q
      cases unionfsLookupBackend s d dir n with
      | error e => rfl
      | ok c =>
        show pathLookup s (dir ++ [n]) c (p ++ q) = _
        rw [ih]
        simp [Except.bind]

/-- What a union of the branches should show. -/
def unionView (s : Stack α) : Flat Text α := Overlay.view (layers s)

/-- The root dentry is a directory in every branch. -/
theorem rootDentry_isDirDentry {s : Stack α} (hs : s ≠ []) :
    IsDirDentry s [] (rootDentry s) 0 (s.length - 1) := by
  have hpos : 0 < s.length := List.length_pos_iff.mpr hs
  refine ⟨rfl, rfl, fun i x hi => ?_, ?_⟩
  · have hlt : i < s.length := by
      by_contra h
      simp [rootDentry, List.getElem?_eq_none (Nat.le_of_not_lt h)] at hi
    simp only [rootDentry, List.getElem?_eq_getElem hlt, Option.map_some, Option.some.injEq] at hi
    refine ⟨Nat.zero_le i, by omega, hlt, ?_, ?_⟩
    · simp [Stack.node, hlt, hi]
    · rw [← hi]
      exact (s[i].tree.root).ne_none
  · have ⟨x, hroot, hisdir⟩ := Flat.isDirAt_iff.mp (s[0].tree.root)
    exact ⟨x, by simp [rootDentry, hpos, hroot], hisdir,
      by simp [rootDentry, Stack.node, hpos, hroot]⟩

/-- The root shows the union. -/
theorem rootDentry_view {s : Stack α} : (rootDentry s).view s [] = unionView s := by
  have h : (rootDentry s).dirs s = List.range s.length := by
    rw [Dentry.dirs, List.filter_eq_self]
    intro i hi
    have hlt := List.mem_range.mp hi
    have ⟨x, hroot, hisdir⟩ := Flat.isDirAt_iff.mp (s[i].tree.root)
    simp [Dentry.hiddenDir, rootDentry, hlt, hroot, hisdir]
  rw [Dentry.view, h, unionView, layers_eq_map]
  rfl

/-- The union is closed. -/
theorem unionView_closed {s : Stack α} (hs : s ≠ []) : (unionView s).Closed :=
  rootDentry_view ▸ (rootDentry_isDirDentry hs).view_closed rfl

/-- Only entries with valid names show. -/
theorem valid_of_unionView {s : Stack α} {p : Path} (h : unionView s p ≠ none) :
    p.all isValidname = true := by
  have ⟨x, hx⟩ := Option.ne_none_iff_exists'.mp h
  have ⟨t, ht, hentry⟩ := exists_entry_of_view hx
  have ⟨b, _, hlayer⟩ := List.mem_map.mp ht
  by_contra hinvalid
  rw [← hlayer] at hentry
  have hnone : b.tree.layer.entry p = none := if_neg hinvalid
  rw [hnone] at hentry
  simp at hentry

/-- The dentry of a directory, and the lookups in it. -/
theorem dentryOf_dir {s : Stack α} (hs : s ≠ []) (hreg : WhiteoutsReg s) {dir : Path}
    (hv : (unionView s).IsDirAt dir) :
    ∃ d b e, dentryOf s dir = .ok d ∧ IsDirDentry s dir d b e ∧
      (∀ r, d.view s dir r = unionView s (dir ++ r)) ∧
      ∀ n, dentryOf s (dir ++ [n]) = unionfsLookupBackend s d dir n := by
  have hvalid := valid_of_unionView hv.ne_none
  rw [← rootDentry_view] at hv
  have ⟨d, b, e, hdentry, _, hdird, hview⟩ :=
    pathLookup_dir hreg (rootDentry_isDirDentry hs) rfl hvalid hv
  rw [List.nil_append] at hdird hview
  refine ⟨d, b, e, hdentry, hdird, fun r => by rw [hview, rootDentry_view], fun n => ?_⟩
  rw [dentryOf, pathLookup_append, hdentry, List.nil_append]
  show pathLookup s dir d [n] = _
  rw [pathLookup_cons hdird]
  cases unionfsLookupBackend s d dir n <;> rfl

/-- The dentry of an entry of a directory of the union. -/
theorem dentryOf_child {s : Stack α} (hreg : WhiteoutsReg s) {dir : Path} {d : Dentry α} {b e : Nat}
    (hd : IsDirDentry s dir d b e) (hv : ∀ r, d.view s dir r = unionView s (dir ++ r))
    (hdir : dir.all isValidname = true) {n : Text} (hn : isValidname n = true) :
    ∃ d', unionfsLookupBackend s d dir n = .ok d' ∧
      ((∃ b' e', b ≤ b' ∧ IsDirDentry s (dir ++ [n]) d' b' e' ∧
          d'.inode = unionView s (dir ++ [n]) ∧ (unionView s).IsDirAt (dir ++ [n]) ∧
          d'.dirs s = found n (s.layerAt dir) (d.dirs s)) ∨
        (∃ b' x, b ≤ b' ∧ d' = fileDentry x b' ∧ x.isDir = false ∧
          unionView s (dir ++ [n]) = some x ∧
          s.node b' (dir ++ [n]) = some x ∧ found n (s.layerAt dir) (d.dirs s) = [b']) ∨
        IsNegDentry s (dir ++ [n]) d' b ∧ unionView s (dir ++ [n]) = none ∧
          found n (s.layerAt dir) (d.dirs s) = []) := by
  have hdirn : (dir ++ [n]).all isValidname = true := by simp [hdir, hn]
  have hview : unionView s (dir ++ [n]) =
      Overlay.view ((found n (s.layerAt dir) (d.dirs s)).map (s.layerAt (dir ++ [n]))) [] := by
    rw [← hv, Dentry.view_cons]
  have ⟨d', hlook, hcases⟩ := unionfsLookupBackend_spec hreg hd hdir hn
  refine ⟨d', hlook, ?_⟩
  rcases hcases with ⟨b', e', hle, hdird, hdirs⟩ | ⟨b', x, hle, hd', hfile, hnode, hone⟩ |
    ⟨hneg, hnone⟩
  · have ⟨x, hhidden, hisdir, hinode⟩ := hdird.first
    have hx : unionView s (dir ++ [n]) = some x := by
      have hhead := hdird.dirs_head
      rw [hdirs] at hhead
      rw [hview]
      cases hfound : found n (s.layerAt dir) (d.dirs s) with
      | nil => simp [hfound] at hhead
      | cons c r =>
        rw [hfound, List.head?_cons, Option.some.injEq] at hhead
        rw [hhead, List.map_cons, view_cons_nil, layerAt_entry_nil s hdirn,
          (hdird.hidden b' _ hhidden).2.2.2.1]
    refine .inl ⟨b', e', hle, hdird, by rw [hinode, hx], ?_, hdirs⟩
    rw [Flat.IsDirAt, hx]
    exact hisdir
  · refine .inr (.inl ⟨b', x, hle, hd', hfile, ?_, hnode, hone⟩)
    rw [hview, hone, List.map_singleton, view_file hfile hdirn hnode, if_pos rfl]
  · exact .inr (.inr ⟨hneg, by rw [hview, hnone]; rfl, hnone⟩)

/-- A name shows in a directory when the lookup finds it in a branch. -/
theorem found_ne_nil_child {s : Stack α} (hreg : WhiteoutsReg s) {dir : Path} {d : Dentry α}
    {b e : Nat} (hd : IsDirDentry s dir d b e)
    (hv : ∀ r, d.view s dir r = unionView s (dir ++ r)) (hdir : dir.all isValidname = true)
    {n : Text} (hn : isValidname n = true) :
    found n (s.layerAt dir) (d.dirs s) ≠ [] ↔ unionView s (dir ++ [n]) ≠ none := by
  have ⟨d', _, h⟩ := dentryOf_child hreg hd hv hdir hn
  rcases h with ⟨b', e', _, hdird, _, hisdir, hdirs⟩ | ⟨b', x, _, _, _, hview, _, hfound⟩ |
    ⟨_, hview, hfound⟩
  · refine ⟨fun _ => hisdir.ne_none, fun _ hnil => ?_⟩
    have hhead := hdird.dirs_head
    rw [hdirs, hnil] at hhead
    simp at hhead
  · rw [hview, hfound]
    simp
  · rw [hview, hfound]
    simp

/-- What a walk along a path ends in is what the merged layers have there. -/
theorem inodeOf_eq_unionView {s : Stack α} (hs : s ≠ []) (hreg : WhiteoutsReg s) (p : Path) :
    inodeOf s p = unionView s p := by
  induction p using List.reverseRecOn with
  | nil =>
    cases s with
    | nil => exact absurd rfl hs
    | cons b s => rfl
  | append_singleton dir n ih =>
    by_cases hv : (unionView s).IsDirAt dir
    · obtain ⟨d, b, e, hdentry, hdird, hview, hchild⟩ := dentryOf_dir hs hreg hv
      have hdir := valid_of_unionView hv.ne_none
      cases hn : isValidname n with
      | true =>
        obtain ⟨d', hlook, hcases⟩ := dentryOf_child hreg hdird hview hdir hn
        rw [inodeOf, hchild, hlook]
        rcases hcases with ⟨b', e', _, _, hinode, _⟩ | ⟨b', x, _, hd', _, hx, _⟩ | ⟨hneg, hnone, _⟩
        · exact hinode
        · rw [hx, hd']
          rfl
        · rw [hnone]
          exact hneg.inode
      | false =>
        have hnone : unionView s (dir ++ [n]) = none := by
          by_contra hsome
          have := valid_of_unionView hsome
          simp [hn] at this
        rw [inodeOf, hchild, hnone, unionfsLookupBackend, hn]
        rfl
    · rw [(unionView_closed hs).none_append (List.cons_ne_nil n []) hv, inodeOf, dentryOf,
        pathLookup_append]
      rw [inodeOf, dentryOf] at ih
      cases hdent : pathLookup s [] (rootDentry s) dir with
      | error e => rfl
      | ok d =>
        rw [hdent] at ih
        simp only at ih
        simp only [bind, Except.bind, pathLookup, ih]
        cases hx : unionView s dir with
        | none => rfl
        | some x =>
          cases x with
          | reg a => rfl
          | other a => rfl
          | dir a => exact absurd (by simp [Flat.IsDirAt, hx, Inode.isDir]) hv

end Kernel
