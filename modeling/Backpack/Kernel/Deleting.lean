import Backpack.Kernel.Writing

/-!
# Deleted entries of a union

`unionfs_unlink` and `unionfs_rmdir` first look up the entry in all branches. The entry of the
leftmost branch goes away when that can be written, and a whiteout in the leftmost branch
hides those to the right. A directory must be empty in the union for this, which
`check_empty` finds out from the listings of the branches.
-/

namespace Kernel

open Shell Overlay
open UnionFs (Path whPrefix)

variable {α : Type}

/-! ## The partial lookup -/

section

variable {s : Stack α} {mode : LookupMode} {parent : Dentry α} {dir : Path} {name : Text}

/-- What the loop body does in a branch with the directory that it does not pass over. -/
inductive Looked (s : Stack α) (dir : Path) (name : Text) (i : Nat) (st : LookupState α) :
    LookupState α → After → Prop
  | whiteout (hw : s.node i (dir ++ [allocWhname name]) ≠ none) :
      Looked s dir name i st (st.stopAt i) (.leave (some i))
  | absent (st1) (hw : s.node i (dir ++ [allocWhname name]) = none)
      (hn : s.node i (dir ++ [name]) = none) (hst : st1.dentry = st.dentry)
      (hcount : st1.dentryCount = st.dentryCount) : Looked s dir name i st st1 .next
  | entry (x : Inode α) (hn : s.node i (dir ++ [name]) = some x) :
      Looked s dir name i st (st.take i x) .next
  | file (x : Inode α) (hn : s.node i (dir ++ [name]) = some x) (hx : x.isDir = false)
      (hcount : st.dentryCount = 0) : Looked s dir name i st (st.take i x) (.leave none)
  | marked (x : Inode α) (hn : s.node i (dir ++ [name]) = some x)
      (ho : isOpaqueDir s (dir ++ [name]) i = true) :
      Looked s dir name i st ((st.take i x).stopAt i) (.leave (some i))

/-- A branch that was looked up before is passed over. -/
theorem lookupBranch_skip {i : Nat} {st : LookupState α} (h : (st.dentry.hidden i).isSome = true) :
    lookupBranch s .interposePartial parent dir name i st = .ok (st, .next) :=
  if_pos ⟨rfl, h⟩

/-- One turn of the loop has looked at its branch. -/
theorem lookupBranch_looked (hreg : WhiteoutsReg s) {i : Nat} (hp : parent.hiddenDir i = true)
    {st : LookupState α} (h : ¬ (mode = .interposePartial ∧ (st.dentry.hidden i).isSome)) :
    ∃ st1 after, lookupBranch s mode parent dir name i st = .ok (st1, after) ∧
      Looked s dir name i st st1 after := by
  have ⟨a, ha⟩ := Dentry.hiddenDir_iff.mp hp
  unfold lookupBranch
  rw [if_neg h]
  simp only [ha]
  cases hw : s.node i (dir ++ [allocWhname name]) with
  | some wh =>
    simp only [hreg _ _ _ _ hw, if_true]
    exact ⟨_, _, rfl, .whiteout (by simp [hw])⟩
  | none =>
    cases hn : s.node i (dir ++ [name]) with
    | none =>
      by_cases hfirst : st.firstDentryOffset = none ∧ st.dentry.bstart = none
      · simp only [if_pos hfirst]
        exact ⟨_, _, rfl, .absent _ hw hn rfl rfl⟩
      · simp only [if_neg hfirst]
        exact ⟨_, _, rfl, .absent _ hw hn rfl rfl⟩
    | some x =>
      simp only
      split_ifs with hfile hcount hpartial hmarked
      · exact ⟨_, _, rfl, .entry x hn⟩
      · exact ⟨_, _, rfl, .file x hn hfile (by omega)⟩
      · exact ⟨_, _, rfl, .entry x hn⟩
      · exact ⟨_, _, rfl, .marked x hn hmarked⟩
      · exact ⟨_, _, rfl, .entry x hn⟩

/-- Only this branch can get a hidden dentry. -/
theorem Looked.other {i : Nat} {st st1 : LookupState α} {after : After}
    (h : Looked s dir name i st st1 after) {j : Nat} (hj : j ≠ i) :
    st1.dentry.hidden j = st.dentry.hidden j := by
  cases h with
  | whiteout hw => rfl
  | absent _ hw hn hst => rw [hst]
  | entry x hn => simp [LookupState.take, hj]
  | file x hn => simp [LookupState.take, hj]
  | marked x hn => simp [LookupState.take, LookupState.stopAt, hj]

/-- What a lookup knows of a branch in which it looked. -/
def Seen (s : Stack α) (dir : Path) (name : Text) (d : Dentry α) (i : Nat) : Prop :=
  d.hidden i ≠ none ∨
    s.node i (dir ++ [allocWhname name]) = none ∧ s.node i (dir ++ [name]) = none

/-- A branch that was looked at is known, or its whiteout stops the loop. -/
theorem Looked.seen {i : Nat} {st st1 : LookupState α} {after : After}
    (h : Looked s dir name i st st1 after) :
    Seen s dir name st1.dentry i ∨ s.node i (dir ++ [allocWhname name]) ≠ none ∧
      after = .leave (some i) := by
  cases h with
  | whiteout hw => exact .inr ⟨hw, rfl⟩
  | absent _ hw hn hst => exact .inl (.inr ⟨hw, hn⟩)
  | entry x hn => exact .inl (.inl (by simp [LookupState.take]))
  | file x hn => exact .inl (.inl (by simp [LookupState.take]))
  | marked x hn => exact .inl (.inl (by simp [LookupState.take, LookupState.stopAt]))

/-- What was known of other branches stays known. -/
theorem Looked.keep {i : Nat} {st st1 : LookupState α} {after : After}
    (h : Looked s dir name i st st1 after) {j : Nat} (hj : st.dentry.hidden j ≠ none) :
    st1.dentry.hidden j ≠ none := by
  by_cases hji : j = i
  · subst hji
    cases h with
    | whiteout hw => exact hj
    | absent _ hw hn hst => rwa [hst]
    | entry x hn => simp [LookupState.take]
    | file x hn => simp [LookupState.take]
    | marked x hn => simp [LookupState.take, LookupState.stopAt]
  · rwa [h.other hji]

/-- The first directory or file decides what the dentry is, and a file ends the search. -/
def LookupState.IsFile (st : LookupState α) : Prop :=
  ∃ i x, st.dentry.bstart = some i ∧ st.dentry.hidden i = some (some x) ∧ x.isDir = false

/-- The loop ends without a stop at a file only. -/
theorem Looked.leave_none {i : Nat} {st st1 : LookupState α}
    (h : Looked s dir name i st st1 (.leave none))
    (hb : st.dentryCount = 0 → st.dentry.bstart = none) : st1.IsFile := by
  cases h with
  | file x hn hx hcount => exact ⟨i, x, by simp [LookupState.take, hb hcount],
      by simp [LookupState.take], hx⟩

/-- A stop is noted as the opaque branch. -/
theorem Looked.leave_some {i k : Nat} {st st1 : LookupState α}
    (h : Looked s dir name i st st1 (.leave (some k))) :
    k = i ∧ st1.dentry.bopaqueIndex = some i := by
  cases h with
  | whiteout hw => exact ⟨rfl, rfl⟩
  | marked x hn ho => exact ⟨rfl, rfl⟩

/-- A turn that goes on has noted no stop. -/
theorem Looked.next {i : Nat} {st st1 : LookupState α} (h : Looked s dir name i st st1 .next)
    (hb : st.dentryCount = 0 → st.dentry.bstart = none) :
    st1.dentry.bopaqueIndex = st.dentry.bopaqueIndex ∧
      (st1.dentryCount = 0 → st1.dentry.bstart = none) := by
  cases h with
  | absent _ hw hn hst hcount =>
    exact ⟨by rw [hst], fun hcount' => by rw [hst]; exact hb (hcount ▸ hcount')⟩
  | entry x hn => exact ⟨rfl, fun hcount' => absurd hcount' (Nat.succ_ne_zero _)⟩

/-- The first lookup of a directory: left of a branch that it took it has seen all there is, and
it has seen all branches unless a whiteout or an opaque directory ended it. -/
theorem lookupLoop_passed (hreg : WhiteoutsReg s) {is : List Nat}
    (his : ∀ i ∈ is, parent.hiddenDir i = true) (hsorted : is.Pairwise (· < ·))
    {st st' : LookupState α} {stop : Option Nat}
    (hb : st.dentryCount = 0 → st.dentry.bstart = none) (ho : st.dentry.bopaqueIndex = none)
    (h : lookupLoop s .interposeLookup parent dir name is st = .ok (st', stop)) :
    (∀ j, st.dentry.hidden j ≠ none → st'.dentry.hidden j ≠ none) ∧
    (∀ j, st.dentry.hidden j = none → st'.dentry.hidden j ≠ none →
      j ∈ is ∧ ∀ i ∈ is, i ≤ j → Seen s dir name st'.dentry i) ∧
    (∀ w, st'.dentry.bopaqueIndex = some w → w ∈ is ∧
      ∀ j, st.dentry.hidden j = none → st'.dentry.hidden j ≠ none → j ≤ w) ∧
    (st'.IsFile ∨ ∀ i ∈ is, Seen s dir name st'.dentry i ∨
      s.node i (dir ++ [allocWhname name]) ≠ none ∨ ∃ w < i, st'.dentry.bopaqueIndex = some w) := by
  induction is generalizing st with
  | nil =>
    rw [lookupLoop, Except.ok.injEq, Prod.mk.injEq] at h
    refine ⟨fun j hj => h.1 ▸ hj, fun j hj hj' => absurd (h.1 ▸ hj) hj', fun w hw => ?_,
      .inr fun i hi => absurd hi List.not_mem_nil⟩
    rw [← h.1, ho] at hw
    simp at hw
  | cons k is ih =>
    have hk := List.pairwise_cons.mp hsorted
    obtain ⟨st1, after, hstep, hl⟩ := @lookupBranch_looked α s .interposeLookup parent dir
      name hreg k (his k List.mem_cons_self) st (by simp)
    have hnew : ∀ j, st.dentry.hidden j = none → st1.dentry.hidden j ≠ none → j = k := by
      intro j hnone hsome
      by_contra hjk
      exact hsome ((hl.other hjk).trans hnone)
    rw [lookupLoop, hstep] at h
    simp only [bind, Except.bind] at h
    cases after with
    | leave stop1 =>
      simp only [Except.ok.injEq, Prod.mk.injEq] at h
      rw [← h.1]
      refine ⟨fun j => hl.keep, fun j hnone hsome => ?_, fun w hw => ?_, ?_⟩
      · have hjk := hnew j hnone hsome
        refine ⟨hjk ▸ List.mem_cons_self, fun i hi hij => ?_⟩
        have hik : i = k := by
          rcases List.mem_cons.mp hi with hi | hi
          · exact hi
          · have := hk.1 i hi
            omega
        exact .inl (hik ▸ hjk ▸ hsome)
      · have hwk : w = k := by
          cases hl with
          | whiteout hw1 => exact (Option.some.inj hw).symm
          | file x hn hx hcount => exact absurd (ho.symm.trans hw) (by simp)
          | marked x hn ho1 => exact (Option.some.inj hw).symm
        exact ⟨hwk ▸ List.mem_cons_self,
          fun j hnone hsome => (hnew j hnone hsome).trans hwk.symm |>.le⟩
      · cases stop1 with
        | none => exact .inl (hl.leave_none hb)
        | some stop2 =>
          obtain ⟨hstop, hmarked⟩ := hl.leave_some
          refine .inr fun i hi => ?_
          rcases List.mem_cons.mp hi with hi | hi
          · subst hi
            exact hl.seen.imp id fun hleft => .inl hleft.1
          · exact .inr (.inr ⟨k, hk.1 i hi, hmarked⟩)
    | next =>
      obtain ⟨hmarked, hb'⟩ := hl.next hb
      obtain ⟨hkeep, hnewer, hstop, hpassed⟩ := ih (fun i hi => his i (List.mem_cons_of_mem k hi))
        hk.2 hb' (hmarked.trans ho) h
      have hseen : Seen s dir name st'.dentry k :=
        hl.seen.elim (fun hsee => hsee.imp (hkeep k) id) fun hsee => by simp at hsee
      refine ⟨fun j hj => hkeep j (hl.keep hj), fun j hnone hsome => ?_, fun w hw => ?_, ?_⟩
      · cases hobj : st1.dentry.hidden j with
        | some y =>
          have hjk := hnew j hnone (by simp [hobj])
          refine ⟨hjk ▸ List.mem_cons_self, fun i hi hij => ?_⟩
          rcases List.mem_cons.mp hi with hi | hi
          · exact hi ▸ hseen
          · have := hk.1 i hi
            omega
        | none =>
          obtain ⟨hj, hsees⟩ := hnewer j hobj hsome
          refine ⟨List.mem_cons_of_mem k hj, fun i hi hij => ?_⟩
          rcases List.mem_cons.mp hi with hi | hi
          · exact hi ▸ hseen
          · exact hsees i hi hij
      · obtain ⟨hw', hle⟩ := hstop w hw
        refine ⟨List.mem_cons_of_mem k hw', fun j hnone hsome => ?_⟩
        cases hobj : st1.dentry.hidden j with
        | some y =>
          rw [hnew j hnone (by simp [hobj])]
          exact (hk.1 w hw').le
        | none => exact hle j hobj hsome
      · refine hpassed.imp id fun hall i hi => ?_
        rcases List.mem_cons.mp hi with hi | hi
        · exact .inl (hi ▸ hseen)
        · exact hall i hi

/-- `d'` is `d` with what a further lookup in the branches `is` finds. -/
structure Extends (s : Stack α) (dir : Path) (name : Text) (is : List Nat) (d d' : Dentry α) :
    Prop where
  inode : d'.inode = d.inode
  bstart : d'.bstart = d.bstart
  hidden : ∀ j, d'.hidden j = d.hidden j ∨ j ∈ is ∧ ¬ Seen s dir name d j ∧
    d'.hidden j = some (s.node j (dir ++ [name])) ∧ s.node j (dir ++ [name]) ≠ none
  bend : d'.bend = d.bend ∨ ∃ k ∈ is, ¬ Seen s dir name d k ∧ d'.bend = some k
  bopaqueIndex : d'.bopaqueIndex = d.bopaqueIndex ∨ ∃ k ∈ is, ¬ Seen s dir name d k ∧
    (s.node k (dir ++ [allocWhname name]) ≠ none ∨ isOpaqueDir s (dir ++ [name]) k = true) ∧
    d'.bopaqueIndex = some k

theorem Extends.refl (s : Stack α) (dir : Path) (name : Text) (is : List Nat) (d : Dentry α) :
    Extends s dir name is d d :=
  ⟨rfl, rfl, fun _ => .inl rfl, .inl rfl, .inl rfl⟩

/-- What was seen stays seen. -/
theorem Extends.seen {is : List Nat} {d d' : Dentry α} (h : Extends s dir name is d d') {j : Nat}
    (hj : Seen s dir name d j) : Seen s dir name d' j := by
  refine hj.imp (fun hsome hnone => ?_) id
  rcases h.hidden j with hsame | hsame
  · exact hsome (hsame ▸ hnone)
  · exact hsame.2.1 hj

/-- One turn and the rest of the loop. -/
theorem Extends.trans {k : Nat} {is : List Nat} {d d1 d' : Dentry α}
    (h : Extends s dir name [k] d d1) (h' : Extends s dir name is d1 d') :
    Extends s dir name (k :: is) d d' := by
  have hmem : ∀ j, j ∈ [k] → j ∈ k :: is := fun j hj => List.mem_cons.mpr
    (.inl (List.mem_singleton.mp hj))
  refine ⟨h'.inode.trans h.inode, h'.bstart.trans h.bstart, fun j => ?_, ?_, ?_⟩
  · rcases h'.hidden j with heq | hnew
    · rw [heq]
      exact (h.hidden j).imp id fun hnew => ⟨hmem j hnew.1, hnew.2⟩
    · exact .inr ⟨List.mem_cons_of_mem k hnew.1, fun hsee => hnew.2.1 (h.seen hsee), hnew.2.2⟩
  · rcases h'.bend with heq | ⟨i, hi, hns, hbend⟩
    · rw [heq]
      exact h.bend.imp id fun ⟨i, hi, hbend⟩ => ⟨i, hmem i hi, hbend⟩
    · exact .inr ⟨i, List.mem_cons_of_mem k hi, fun hsee => hns (h.seen hsee), hbend⟩
  · rcases h'.bopaqueIndex with heq | ⟨i, hi, hns, hstop⟩
    · rw [heq]
      exact h.bopaqueIndex.imp id fun ⟨i, hi, hstop⟩ => ⟨i, hmem i hi, hstop⟩
    · exact .inr ⟨i, List.mem_cons_of_mem k hi, fun hsee => hns (h.seen hsee), hstop⟩

/-- A turn adds what its branch has to the dentry. -/
theorem Looked.extends {i : Nat} {st st1 : LookupState α} {after : After}
    (h : Looked s dir name i st st1 after) (hi : st.dentry.hidden i = none)
    (hb : st.dentry.bstart.isSome = true) : Extends s dir name [i] st.dentry st1.dentry := by
  have hself : i ∈ [i] := List.mem_singleton_self i
  have hbstart : ∀ x, (st.take i x).dentry.bstart = st.dentry.bstart := by
    intro x
    have ⟨b, hb⟩ := Option.isSome_iff_exists.mp hb
    simp [LookupState.take, hb]
  have hnew : ∀ x, s.node i (dir ++ [name]) = some x → ¬ Seen s dir name st.dentry i := by
    intro x hx h
    rcases h with h | h
    · exact h hi
    · simp [hx] at h
  have htake : ∀ x, s.node i (dir ++ [name]) = some x → ∀ j,
      (st.take i x).dentry.hidden j = st.dentry.hidden j ∨ j ∈ [i] ∧
        ¬ Seen s dir name st.dentry j ∧
        (st.take i x).dentry.hidden j = some (s.node j (dir ++ [name])) ∧
        s.node j (dir ++ [name]) ≠ none := by
    intro x hx j
    by_cases hj : j = i
    · subst hj
      exact .inr ⟨hself, hnew x hx, by simp [LookupState.take, hx], by simp [hx]⟩
    · exact .inl (by simp [LookupState.take, hj])
  cases h with
  | whiteout hw =>
    have hns : ¬ Seen s dir name st.dentry i := fun h => h.elim (fun h => h hi) fun h => hw h.1
    exact ⟨rfl, rfl, fun j => .inl rfl, .inr ⟨i, hself, hns, rfl⟩,
      .inr ⟨i, hself, hns, .inl hw, rfl⟩⟩
  | absent _ hw hn hst => exact hst ▸ Extends.refl s dir name [i] st.dentry
  | entry x hn => exact ⟨rfl, hbstart x, htake x hn, .inr ⟨i, hself, hnew x hn, rfl⟩, .inl rfl⟩
  | file x hn => exact ⟨rfl, hbstart x, htake x hn, .inr ⟨i, hself, hnew x hn, rfl⟩, .inl rfl⟩
  | marked x hn ho =>
    exact ⟨rfl, hbstart x, htake x hn, .inr ⟨i, hself, hnew x hn, rfl⟩,
      .inr ⟨i, hself, hnew x hn, .inr ho, rfl⟩⟩

/-- The loop adds what the branches have to the dentry. -/
theorem lookupLoop_extends (hreg : WhiteoutsReg s) {is : List Nat}
    (his : ∀ i ∈ is, parent.hiddenDir i = true) {st : LookupState α}
    (hb : st.dentry.bstart.isSome = true) :
    ∃ st' stop, lookupLoop s .interposePartial parent dir name is st = .ok (st', stop) ∧
      Extends s dir name is st.dentry st'.dentry := by
  induction is generalizing st with
  | nil => exact ⟨st, none, rfl, Extends.refl s dir name [] st.dentry⟩
  | cons k is ih =>
    have his' : ∀ i ∈ is, parent.hiddenDir i = true := fun i hi => his i (List.mem_cons_of_mem k hi)
    rw [lookupLoop]
    cases hk : st.dentry.hidden k with
    | some y =>
      obtain ⟨st', stop, hrun, hext⟩ := ih his' hb
      refine ⟨st', stop, ?_, (Extends.refl s dir name [k] st.dentry).trans hext⟩
      rw [lookupBranch_skip (by simp [hk])]
      exact hrun
    | none =>
      obtain ⟨st1, after, hstep, hlooked⟩ := @lookupBranch_looked α s .interposePartial parent dir
        name hreg k (his k List.mem_cons_self) st (by simp [hk])
      have hext := hlooked.extends hk hb
      rw [hstep]
      cases after with
      | leave stop => exact ⟨st1, stop, rfl, hext.trans (Extends.refl s dir name is st1.dentry)⟩
      | next =>
        have hb1 : st1.dentry.bstart.isSome = true := by rw [hext.bstart, hb]
        obtain ⟨st', stop, hrun, hrest⟩ := ih his' hb1
        exact ⟨st', stop, hrun, hext.trans hrest⟩

/-- A partial lookup adds what lies in the branches below the first. -/
theorem unionfsPartialLookup_spec (hreg : WhiteoutsReg s) {c e : Nat}
    (hd : IsDirDentry s dir parent c e) (hn : isValidname name = true) {d : Dentry α}
    (hb : d.bstart.isSome = true) :
    ∃ d' is, unionfsPartialLookup s parent dir name d = .ok d' ∧
      Extends s dir name is d d' ∧ ∀ i ∈ is, parent.hiddenDir i = true ∧ c < i := by
  set is := (branches (c + 1) (clipBend parent.bopaqueIndex e)).filter parent.hiddenDir with his
  have hmem : ∀ i ∈ is, parent.hiddenDir i = true ∧ c < i := by
    intro i hi
    have hi' := List.mem_filter.mp hi
    have hlt := (List.mem_range'_1.mp hi'.1).1
    exact ⟨hi'.2, hlt⟩
  have ⟨st', stop, hrun, hext⟩ := @lookupLoop_extends α s parent dir name hreg is
    (fun i hi => (hmem i hi).1) ⟨d, 0, none⟩ hb
  refine ⟨st'.dentry, is, ?_, hext, hmem⟩
  simp only [unionfsPartialLookup, hn, Bool.true_eq_false, if_false, hd.bstart, hd.bend]
  rw [lookupLoop_filter, ← his, hrun]
  rfl

end

/-! ## Entries of the union -/

variable {b : Branch α} {rest : Stack α}

/-- What the dentry of an entry has, which the branch `i` is the first to have. -/
structure Present (b : Branch α) (rest : Stack α) (dir : Path) (n : Text) (d : Dentry α) (i : Nat)
    (x : Inode α) : Prop where
  isDir : (unionView (b :: rest)).IsDirAt dir
  view : unionView (b :: rest) (dir ++ [n]) = some x
  bstart : d.bstart = some i
  hiddenAt : d.hidden i = some (some x)
  hidden : ∀ j y, d.hidden j = some y → y = Stack.node (b :: rest) j (dir ++ [n]) ∧ y ≠ none
  zero : (d.hidden 0).isSome = true ↔ i = 0
  first : i = 0 ↔ b.tree.node (dir ++ [n]) ≠ none

/-- A name the union has is looked up in the leftmost branch that shows it. -/
theorem present_live (hl : Live b rest) {dir : Path} (hd : (unionView (b :: rest)).IsDirAt dir)
    {n : Text} (hn : isValidname n = true) {x : Inode α}
    (hV : unionView (b :: rest) (dir ++ [n]) = some x) :
    ∃ parent c e d i, dentryOf (b :: rest) dir = .ok parent ∧
      IsDirDentry (b :: rest) dir parent c e ∧
      unionfsLookupBackend (b :: rest) parent dir n = .ok d ∧
      dentryOf (b :: rest) (dir ++ [n]) = .ok d ∧ Present b rest dir n d i x ∧
      ∀ r, parent.view (b :: rest) dir r = unionView (b :: rest) (dir ++ r) := by
  have ⟨parent, c, e, hparent, hdird, hview, hlookup, hzeroth⟩ := dentryOf_live hl hd
  have hdir := valid_of_unionView hd.ne_none
  have ⟨d, hd', hkind⟩ := dentryOf_child hl.whiteoutsReg hdird hview hdir hn
  -- what the leftmost branch has is found first
  have hzero : b.tree.node (dir ++ [n]) ≠ none →
      (found n (Stack.layerAt (b :: rest) dir) (parent.dirs (b :: rest))).head? = some 0 := by
    intro hN
    have hc : c = 0 := hzeroth.mpr (b.tree.closed dir n hN)
    subst hc
    exact found_zero hl hdird hdir hn hN
  have key : ∀ i, d.bstart = some i → d.hidden i = some (some x) →
      (∀ j y, d.hidden j = some y → i ≤ j ∧ y = Stack.node (b :: rest) j (dir ++ [n]) ∧ y ≠ none) →
      (b.tree.node (dir ++ [n]) ≠ none → i = 0) → Present b rest dir n d i x := by
    intro i hbstart hfirst hhidden hleft
    refine ⟨hd, hV, hbstart, hfirst, fun j y hj => (hhidden j y hj).2,
      ⟨fun h => ?_, fun h => ?_⟩, fun h => ?_, hleft⟩
    · have ⟨y, hy⟩ := Option.isSome_iff_exists.mp h
      have := (hhidden 0 y hy).1
      omega
    · rw [← h, hfirst]
      rfl
    · subst h
      have hnode : some x = b.tree.node (dir ++ [n]) := (hhidden 0 _ hfirst).2.1
      rw [← hnode]
      simp
  rcases hkind with ⟨b', e', _, hdirb, hinode, _, hdirs⟩ |
    ⟨b', y, _, hfile, _, hV', hnode, hfound⟩ | ⟨_, hnone, _⟩
  · have ⟨y, hfirst, _, hsame⟩ := hdirb.first
    rw [hsame, hV] at hinode
    rw [hinode] at hfirst
    refine ⟨parent, c, e, d, b', hparent, hdird, hd', by rw [hlookup, hd'],
      key b' hdirb.bstart hfirst (fun j z hj => ?_) (fun hN => ?_), hview⟩
    · have hj' := hdirb.hidden j z hj
      exact ⟨hj'.1, hj'.2.2.2⟩
    · have hhead := hdirb.dirs_head
      rw [hdirs, hzero hN, Option.some.injEq] at hhead
      exact hhead.symm
  · have hxy : y = x := by
      rw [hV, Option.some.injEq] at hV'
      exact hV'.symm
    subst hxy
    refine ⟨parent, c, e, d, b', hparent, hdird, hd', by rw [hlookup, hd'], ?_, hview⟩
    rw [hfile] at key ⊢
    refine key b' rfl (if_pos rfl) (fun j z hj => ?_) fun hN => ?_
    · have hj' : (if j = b' then some (some y) else none) = some z := hj
      split_ifs at hj' with hjb
      · rw [← Option.some.inj hj', hjb, hnode]
        simp
    · have hhead := hzero hN
      rw [hfound, List.head?_cons, Option.some.injEq] at hhead
      exact hhead
  · rw [hV] at hnone
    simp at hnone

/-- The dentry `d` with which an entry is deleted: `d0` as it was looked up in the directory
`parent`, with what the partial lookup finds. -/
structure Deleted (b : Branch α) (rest : Stack α) (dir : Path) (n : Text) (x : Inode α)
    (parent d0 d : Dentry α) (i : Nat) (is : List Nat) : Prop where
  ofParent : dentryOf (b :: rest) dir = .ok parent
  dirDentry : ∃ c e, IsDirDentry (b :: rest) dir parent c e
  view : ∀ r, parent.view (b :: rest) dir r = unionView (b :: rest) (dir ++ r)
  lookup : unionfsLookupBackend (b :: rest) parent dir n = .ok d0
  before : Present b rest dir n d0 i x
  extend : Extends (b :: rest) dir n is d0 d
  right : ∀ k ∈ is, parent.hiddenDir k = true ∧ 0 < k
  present : Present b rest dir n d i x

/-- Before a delete, the dentry holds all branches that have the name. -/
theorem deleted_live (hl : Live b rest) {dir : Path} (hd : (unionView (b :: rest)).IsDirAt dir)
    {n : Text} (hn : isValidname n = true) {x : Inode α}
    (hV : unionView (b :: rest) (dir ++ [n]) = some x) :
    ∃ parent d0 d i is, Deleted b rest dir n x parent d0 d i is ∧
      ∀ {β : Type} (f : Dentry α → Nat → Except Errno β),
        withPartialLookup (b :: rest) dir n f = f d i := by
  have ⟨parent, c, e, d, i, hparent, hdird, hlookup, _, hpresent, hview⟩ := present_live hl hd hn hV
  have ⟨d', is, hpartial, hext, hright⟩ := unionfsPartialLookup_spec (d := d) hl.whiteoutsReg hdird
    hn (by rw [hpresent.bstart]; rfl)
  have hbstart : d'.bstart = some i := hext.bstart.trans hpresent.bstart
  have hkeep : ∀ j y, d.hidden j = some y → d'.hidden j = some y := by
    intro j y hj
    rcases hext.hidden j with hsame | hnew
    · rw [hsame, hj]
    · exact absurd (.inl (by simp [hj])) hnew.2.1
  have his : ∀ k ∈ is, parent.hiddenDir k = true ∧ 0 < k := fun k hk =>
    ⟨(hright k hk).1, Nat.zero_lt_of_lt (hright k hk).2⟩
  refine ⟨parent, d, d', i, is, ⟨hparent, ⟨c, e, hdird⟩, hview, hlookup, hpresent, hext, his,
    ⟨hd, hV, hbstart, hkeep i _ hpresent.hiddenAt, fun j y hj => ?_, ?_, hpresent.first⟩⟩,
    fun f => ?_⟩
  · rcases hext.hidden j with hsame | hnew
    · exact hpresent.hidden j y (hsame ▸ hj)
    · rw [hnew.2.2.1, Option.some.injEq] at hj
      exact hj ▸ ⟨rfl, hnew.2.2.2⟩
  · have hsame : d'.hidden 0 = d.hidden 0 := by
      rcases hext.hidden 0 with hsame | hnew
      · exact hsame
      · exact absurd (his 0 hnew.1).2 (lt_irrefl 0)
    rw [hsame]
    exact hpresent.zero
  · simp only [withPartialLookup, hparent, hlookup, hpartial, bind, Except.bind, hbstart]

/-! ## Whiteouts -/

section

variable {dir : Path} {n : Text} {d : Dentry α} {i : Nat} {x : Inode α}

/-- An entry that shows has no whiteout in the leftmost branch. -/
theorem Present.whiteout_zero (h : Present b rest dir n d i x) (hn : isValidname n = true) :
    b.tree.node (dir ++ [allocWhname n]) = none := by
  by_contra hwh
  have hdir := valid_of_unionView h.isDir.ne_none
  have hhides := unionView_of_whiteout rest (p := dir) (n := n) (by simp [hdir, hn]) hwh
  rw [h.view] at hhides
  simp at hhides

/-- Nor have the other branches that have the entry. -/
theorem Present.whiteout (hl : Live b rest) (h : Present b rest dir n d i x)
    (hn : isValidname n = true) {j : Nat} (hj : d.hidden j ≠ none) :
    Stack.node (b :: rest) j (dir ++ [allocWhname n]) = none := by
  have ⟨y, hy⟩ := Option.ne_none_iff_exists'.mp hj
  have ⟨hnode, hsome⟩ := h.hidden j y hy
  cases hc : (b :: rest)[j]? with
  | none => simp [Stack.node, hc]
  | some c =>
    simp only [Stack.node, hc, Option.bind_some] at hnode ⊢
    by_contra hwh
    exact hsome (hnode.trans ((hl.proper c (List.mem_of_getElem? hc)).once dir n hn hwh))

/-- The loop passes over the branches that cannot be written. -/
theorem createWhiteoutLoop_succ (hl : Live b rest) (h : Present b rest dir n d i x)
    (hn : isValidname n = true) (t : Tree α) (mark : α) (err : Errno) (k : Nat) :
    ∃ err', createWhiteoutLoop ({ b with tree := t } :: rest) d dir n mark err (k + 1) =
      createWhiteoutLoop ({ b with tree := t } :: rest) d dir n mark err' 1 := by
  induction k generalizing err with
  | zero => exact ⟨err, rfl⟩
  | succ k ih =>
    rw [createWhiteoutLoop]
    by_cases hhid : (d.hidden (k + 1)).isSome = true
    · have hnone := h.whiteout hl hn (Option.isSome_iff_ne_none.mp hhid)
      rw [withParents_of_hidden hhid]
      simp only [show Stack.node ({ b with tree := t } :: rest) (k + 1) (dir ++ [allocWhname n]) =
        none from hnone, isRobranchSuper_succ hl]
      exact ih _
    · rw [withParents_of_not_hidden hhid, createParents_succ hl]
      exact ih _

/-- The loop for the whiteout comes to the leftmost branch and makes it there. -/
theorem createWhiteout_live (hl : Live b rest) (h : Present b rest dir n d i x)
    (hn : isValidname n = true) {t u : Tree α} (mark : α) (k : Nat)
    (hs : withParents ({ b with tree := t } :: rest) d dir 0 = .ok ({ b with tree := u } :: rest))
    (hd : u.node.IsDirAt dir) (hw : u.node (dir ++ [allocWhname n]) = none) :
    createWhiteout ({ b with tree := t } :: rest) d dir n mark k =
      .ok ({ b with tree := u.insert dir (allocWhname n) (.reg mark) hd hw } :: rest) := by
  have ⟨err', hloop⟩ := createWhiteoutLoop_succ hl h hn t mark .EINVAL k
  rw [createWhiteout, hloop, createWhiteoutLoop, hs]
  simp only [node_zero, hw, isRobranchSuper_zero hl, onTree_zero hl, Tree.add_ok hd hw]
  rfl

/-- What `unionfs_unlink` and `unionfs_rmdir` do when the entry is only in branches to the
right: there it stays, and a whiteout hides it. -/
theorem whiteout_of_pos_live (hl : Live b rest) (h : Present b rest dir n d i x)
    (hn : isValidname n = true) (hi : i ≠ 0) (mark : α) (k : Nat) :
    ∃ u, createWhiteout (b :: rest) d dir n mark k = .ok ({ b with tree := u } :: rest) ∧
      u.node = graftNode (copyNode b.tree.node (unionView (b :: rest)) dir) dir n none mark := by
  have ⟨t, hs, ht, hdirt⟩ := withParents_zero hl h.isDir (d := d) fun hhid =>
    absurd (h.zero.mp hhid) hi
  have hw : t.node (dir ++ [allocWhname n]) = none := by
    rw [ht, copyNode_child, h.whiteout_zero hn]
  have hN : b.tree.node (dir ++ [n]) = none := by
    by_contra hsome
    exact hi (h.first.mpr hsome)
  have hM : copyNode b.tree.node (unionView (b :: rest)) dir (dir ++ [n]) = none := by
    rw [copyNode_child, hN]
  refine ⟨t.insert dir (allocWhname n) (.reg mark) hdirt hw,
    createWhiteout_live hl h hn (t := b.tree) mark k hs hdirt hw, ?_⟩
  rw [graftNode_delete (ht ▸ t.closed) hn (Flat.not_isDirAt hM)]
  funext q
  show (if q = dir ++ [allocWhname n] then some (.reg mark) else t.node q) = _
  rw [ht]
  by_cases hq : q = dir ++ [n]
  · have hne : dir ++ [n] ≠ dir ++ [allocWhname n] := by
      simpa using ne_of_isValidname hn (not_isValidname_allocWhname n)
    simp only [hq, hne, hM, if_true, if_false]
  · simp only [hq, if_false]

/-- What they do when the leftmost branch had the entry and nothing of it is left there. -/
theorem whiteout_of_zero_live (hl : Live b rest) (h : Present b rest dir n d 0 x)
    (hn : isValidname n = true) {t : Tree α}
    (ht : ∀ q, t.node q = if dir ++ [n] <+: q then none else b.tree.node q) (mark : α) (k : Nat) :
    ∃ u, createWhiteout ({ b with tree := t } :: rest) d dir n mark k =
        .ok ({ b with tree := u } :: rest) ∧
      u.node = graftNode (copyNode b.tree.node (unionView (b :: rest)) dir) dir n none mark := by
  have hdirN : b.tree.node.IsDirAt dir := b.tree.closed dir n (h.first.mp rfl)
  have hpre : ¬ dir ++ [n] <+: dir := by
    intro hpre
    have := hpre.length_le
    simp at this
  have hdirt : t.node.IsDirAt dir := by
    rw [Flat.IsDirAt, ht, if_neg hpre]
    exact hdirN
  have hw : t.node (dir ++ [allocWhname n]) = none := by
    rw [ht, if_neg (not_prefix_whiteout hn), h.whiteout_zero hn]
  have hs : withParents ({ b with tree := t } :: rest) d dir 0 =
      .ok ({ b with tree := t } :: rest) := withParents_of_hidden (h.zero.mpr rfl) dir
  refine ⟨t.insert dir (allocWhname n) (.reg mark) hdirt hw,
    createWhiteout_live hl h hn mark k hs hdirt hw, ?_⟩
  rw [copyNode_of_isDirAt b.tree.closed hdirN]
  funext q
  show (if q = dir ++ [allocWhname n] then some (.reg mark) else t.node q) = _
  rw [ht, graftNode]
  by_cases hq : dir ++ [n] <+: q
  · have hne : q ≠ dir ++ [allocWhname n] := fun heq => not_prefix_whiteout hn (heq ▸ hq)
    simp [hq, hne]
  · simp [hq]

/-- `unionfs_unlink` -/
theorem unionfsUnlink_live (hl : Live b rest) (hd : (unionView (b :: rest)).IsDirAt dir)
    (hn : isValidname n = true) (hV : unionView (b :: rest) (dir ++ [n]) = some x)
    (hx : x.isDir = false) (mark : α) :
    ∃ u, unionfsUnlink (b :: rest) dir n mark = .ok ({ b with tree := u } :: rest) ∧
      u.node = graftNode (copyNode b.tree.node (unionView (b :: rest)) dir) dir n none mark := by
  have ⟨_, _, d, i, _, hdel, hf⟩ := deleted_live hl hd hn hV
  have h := hdel.present
  rw [unionfsUnlink, hf]
  cases i with
  | zero =>
    have hN := h.first.mp rfl
    have hx0 : b.tree.node (dir ++ [n]) = some x := (h.hidden 0 _ h.hiddenAt).1.symm
    have hnd : ¬ b.tree.node.IsDirAt (dir ++ [n]) := by simp [Flat.IsDirAt, hx0, hx]
    set t := b.tree.erase dir n (b.tree.list_eq_nil hnd) with ht
    have hunlink : Stack.onTree (b :: rest) 0 (fun t => t.vfsUnlink dir n) =
        .ok ({ b with tree := t } :: rest) :=
      (onTree_zero hl b.tree _).trans (by rw [Tree.vfsUnlink_ok hN hnd]; rfl)
    have ⟨u, hrun, hu⟩ := whiteout_of_zero_live hl h hn (t := t) (fun q => ?_) mark
      (d.bopaqueIndex.getD 0)
    · refine ⟨u, ?_, hu⟩
      simp only [show isRobranchSuper (b :: rest) 0 = .ok () from isRobranchSuper_zero hl b.tree,
        hunlink, bind, Except.bind]
      exact hrun
    · show (if q = dir ++ [n] then none else b.tree.node q) = _
      by_cases hq : q = dir ++ [n]
      · simp [hq]
      · by_cases hbelow : dir ++ [n] <+: q
        · simp [hq, hbelow, none_below b.tree.closed hnd hbelow hq]
        · simp [hq, hbelow]
  | succ k =>
    have ⟨u, hrun, hu⟩ := whiteout_of_pos_live hl h hn (Nat.succ_ne_zero k) mark k
    refine ⟨u, ?_, hu⟩
    simp only [show isRobranchSuper (b :: rest) (k + 1) = .error .EROFS from
      isRobranchSuper_succ hl b.tree k, bind, Except.bind]
    rw [if_neg (Nat.succ_ne_zero k)]
    exact hrun

end

end Kernel
