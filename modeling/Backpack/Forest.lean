import Mathlib.Data.List.Count
import Mathlib.Data.List.Perm.Basic
import Mathlib.Logic.Relation
import Mathlib.Order.Basic
import Mathlib.Tactic.Common

/-!
# Forests given by a parent relation

A finite set of nodes is given as a list, and `r a d` says that `a` is the parent of `d`. The
walk below `a` takes the children of `a` in the order of the list, and after each child the walk
below it. Where a node has one parent at most and the depth of the nodes is bounded, the walk
meets every node below `a` once, and the children of a node in the order of the list.
-/

namespace Forest

variable {α : Type} (r : α → α → Prop) [DecidableRel r] (nodes : List α)

/-- The children of `a`, in the order of the list. -/
def kids (a : α) : List α := nodes.filter (r a ·)

/-- The nodes below `a` to depth `n`, each one before those below it. -/
def walk : ℕ → α → List α
  | 0, _ => []
  | n + 1, a => (kids r nodes a).flatMap fun k => k :: walk n k

/-- A step from a node to its parent. -/
def Up (x y : α) : Prop := r y x ∧ x ∈ nodes

/-- What makes the relation a forest: one parent at most, and a depth that grows from parent to
child and is bounded. -/
structure IsForest (depth : α → ℕ) (bound : ℕ) : Prop where
  nodup : nodes.Nodup
  parent_unique : ∀ {a b d}, r a d → r b d → a = b
  depth_lt : ∀ {a d}, r a d → depth a < depth d
  depth_le : ∀ {d}, d ∈ nodes → depth d ≤ bound

variable {r nodes}

/-- The kids of a node are the nodes under it. -/
theorem mem_kids {a d : α} : d ∈ kids r nodes a ↔ d ∈ nodes ∧ r a d := by
  simp [kids]

/-- A walk reaches the kids and what they reach. -/
theorem mem_walk_succ {n : ℕ} {a d : α} :
    d ∈ walk r nodes (n + 1) a ↔ ∃ k ∈ kids r nodes a, d = k ∨ d ∈ walk r nodes n k := by
  simp [walk]

/-- From a node of the walk the steps to the parents lead to `a`. -/
theorem up_of_mem_walk {n : ℕ} {a d : α} (hd : d ∈ walk r nodes n a) :
    Relation.ReflTransGen (Up r nodes) d a := by
  induction n generalizing a with
  | zero => simp [walk] at hd
  | succ n ih =>
    obtain ⟨k, hk, hdk⟩ := mem_walk_succ.mp hd
    have hup : Up r nodes k a := (mem_kids.mp hk).symm
    rcases hdk with rfl | hdk
    · exact Relation.ReflTransGen.single hup
    · exact (ih hdk).tail hup

/-- The parent of a node of the walk is `a` or a node of the walk. -/
theorem exists_parent_of_mem_walk {n : ℕ} {a d : α} (hd : d ∈ walk r nodes n a) :
    d ∈ nodes ∧ ∃ c, r c d ∧ (c = a ∨ c ∈ walk r nodes n a) := by
  induction n generalizing a with
  | zero => simp [walk] at hd
  | succ n ih =>
    obtain ⟨k, hk, hdk⟩ := mem_walk_succ.mp hd
    rcases hdk with rfl | hdk
    · exact ⟨(mem_kids.mp hk).1, a, (mem_kids.mp hk).2, Or.inl rfl⟩
    · obtain ⟨hnode, c, hcd, hc⟩ := ih hdk
      exact ⟨hnode, c, hcd, Or.inr (mem_walk_succ.mpr ⟨k, hk, hc⟩)⟩

namespace IsForest

variable {depth : α → ℕ} {bound : ℕ}

omit [DecidableRel r] in
/-- A node lies at most as deep as what is under it. -/
theorem depth_le_of_up (h : IsForest r nodes depth bound) {d a : α}
    (hup : Relation.ReflTransGen (Up r nodes) d a) : depth a ≤ depth d := by
  induction hup with
  | refl => exact Nat.le_refl _
  | tail _ hstep ih =>
    have hlt := h.depth_lt hstep.1
    omega

/-- Nothing is under itself. -/
theorem not_mem_walk_self (h : IsForest r nodes depth bound) {n : ℕ} {a k : α}
    (hk : k ∈ kids r nodes a) : ¬ (a = k ∨ a ∈ walk r nodes n k) := by
  have hlt := h.depth_lt (mem_kids.mp hk).2
  rintro (rfl | hmem)
  · exact Nat.lt_irrefl _ hlt
  · have hle := h.depth_le_of_up (up_of_mem_walk hmem)
    omega

/-- The walks below two children have no node in common: the nodes above one node are in a
line. -/
theorem kid_unique (h : IsForest r nodes depth bound) {n : ℕ} {a k l c : α}
    (hk : k ∈ kids r nodes a) (hl : l ∈ kids r nodes a) (hck : c = k ∨ c ∈ walk r nodes n k)
    (hcl : c = l ∨ c ∈ walk r nodes n l) : k = l := by
  have hunique : Relator.RightUnique (Up r nodes) :=
    fun x y z hy hz => h.parent_unique hy.1 hz.1
  have hup : ∀ {j : α}, (c = j ∨ c ∈ walk r nodes n j) →
      Relation.ReflTransGen (Up r nodes) c j := by
    rintro j (rfl | hj)
    · exact Relation.ReflTransGen.refl
    · exact up_of_mem_walk hj
  -- a child that is above another child is above their parent
  have habove : ∀ {i j : α}, i ∈ kids r nodes a → j ∈ kids r nodes a →
      Relation.ReflTransGen (Up r nodes) i j → i = j := by
    intro i j hi hj hij
    rcases hij.cases_head with heq | ⟨b, hstep, hbj⟩
    · exact heq
    · obtain rfl := h.parent_unique hstep.1 (mem_kids.mp hi).2
      have hlt := h.depth_lt (mem_kids.mp hj).2
      have hle := h.depth_le_of_up hbj
      omega
  rcases Relation.ReflTransGen.total_of_right_unique hunique (hup hck) (hup hcl) with hkl | hlk
  · exact habove hk hl hkl
  · exact (habove hl hk hlk).symm

/-- No kid is met twice. -/
theorem kids_nodup (h : IsForest r nodes depth bound) (a : α) : (kids r nodes a).Nodup :=
  h.nodup.filter _

/-- The first step of a walk that goes to the end. -/
theorem walk_eq (h : IsForest r nodes depth bound) {n : ℕ} {a : α} (hn : bound ≤ depth a + n) :
    walk r nodes n a = (kids r nodes a).flatMap fun k => k :: walk r nodes (n - 1) k := by
  cases n with
  | zero =>
    have hnone : kids r nodes a = [] := by
      refine List.eq_nil_iff_forall_not_mem.mpr fun d hd => ?_
      have hlt := h.depth_lt (mem_kids.mp hd).2
      have hle := h.depth_le (mem_kids.mp hd).1
      omega
    rw [hnone]
    rfl
  | succ n => rfl

/-- The children of `a` stand in the walk below `a` in the order of the list. -/
theorem filter_walk_self (h : IsForest r nodes depth bound) {n : ℕ} {a : α}
    (hn : bound ≤ depth a + n) : (walk r nodes n a).filter (r a ·) = kids r nodes a := by
  have hpart : ∀ k ∈ kids r nodes a, (k :: walk r nodes (n - 1) k).filter (r a ·) = [k] := by
    intro k hk
    have hrest : (walk r nodes (n - 1) k).filter (r a ·) = [] := by
      rw [List.filter_eq_nil_iff]
      intro d hd had
      obtain ⟨-, c, hcd, hc⟩ := exists_parent_of_mem_walk hd
      obtain rfl := h.parent_unique hcd (by simpa using had)
      exact h.not_mem_walk_self hk hc
    rw [List.filter_cons_of_pos (by simpa using (mem_kids.mp hk).2), hrest]
  rw [h.walk_eq hn, List.filter_flatMap, List.flatMap_congr hpart]
  simp

/-- So do the children of a node of the walk. -/
theorem filter_walk (h : IsForest r nodes depth bound) {n : ℕ} {a c : α}
    (hn : bound ≤ depth a + n) (hc : c = a ∨ c ∈ walk r nodes n a) :
    (walk r nodes n a).filter (r c ·) = kids r nodes c := by
  induction n generalizing a with
  | zero =>
    rcases hc with rfl | hc
    · exact h.filter_walk_self hn
    · simp [walk] at hc
  | succ n ih =>
    rcases hc with rfl | hc
    · exact h.filter_walk_self hn
    · obtain ⟨k, hk, hck⟩ := mem_walk_succ.mp hc
      have hlt := h.depth_lt (mem_kids.mp hk).2
      have hca : c ≠ a := by
        rintro rfl
        exact h.not_mem_walk_self hk hck
      -- a child of `a` is none of `c`
      have hhead : ∀ l ∈ kids r nodes a, ¬ r c l := fun l hl hcl =>
        hca (h.parent_unique hcl (mem_kids.mp hl).2)
      have hother : ∀ l ∈ kids r nodes a, l ≠ k →
          (l :: walk r nodes n l).filter (r c ·) = [] := by
        intro l hl hlk
        rw [List.filter_eq_nil_iff]
        intro d hd hcd
        rcases List.mem_cons.mp hd with rfl | hd
        · exact hhead d hl (by simpa using hcd)
        · obtain ⟨-, b, hbd, hb⟩ := exists_parent_of_mem_walk hd
          obtain rfl := h.parent_unique hbd (by simpa using hcd)
          exact hlk (h.kid_unique hl hk hb hck)
      obtain ⟨pre, post, hsplit⟩ := List.append_of_mem hk
      have hnodup := h.kids_nodup a
      rw [hsplit] at hnodup
      have hpre : ∀ l ∈ pre, l ≠ k := by
        rintro l hl rfl
        exact (List.nodup_append.mp hnodup).2.2 l hl l List.mem_cons_self rfl
      have hpost : ∀ l ∈ post, l ≠ k := by
        rintro l hl rfl
        exact (List.nodup_cons.mp (List.nodup_append.mp hnodup).2.1).1 hl
      have hnil : ∀ ls : List α, (∀ l ∈ ls, l ∈ kids r nodes a ∧ l ≠ k) →
          (ls.flatMap fun l => (l :: walk r nodes n l).filter (r c ·)) = [] := by
        intro ls hls
        rw [List.flatMap_eq_nil_iff]
        intro l hl
        exact hother l (hls l hl).1 (hls l hl).2
      rw [walk, List.filter_flatMap, hsplit, List.flatMap_append, List.flatMap_cons,
        hnil pre fun l hl => ⟨by rw [hsplit]; simp [hl], hpre l hl⟩,
        hnil post fun l hl => ⟨by rw [hsplit]; simp [hl], hpost l hl⟩,
        List.filter_cons_of_neg (by simpa using hhead k hk), ih (by omega) hck]
      simp

/-- A node whose parents are there is met by the walk. -/
theorem mem_walk (h : IsForest r nodes depth bound) {n : ℕ} {a : α} (hn : bound ≤ depth a + n)
    (hparents : ∀ d ∈ nodes, ∃ c, r c d ∧ (c = a ∨ c ∈ nodes)) {d : α} (hd : d ∈ nodes) :
    d ∈ walk r nodes n a := by
  induction hk : depth d using Nat.strongRecOn generalizing d with
  | ind k ih =>
    obtain ⟨c, hcd, hc⟩ := hparents d hd
    have hwalk : c = a ∨ c ∈ walk r nodes n a := by
      have hlt := h.depth_lt hcd
      exact hc.imp_right fun hc => ih (depth c) (by omega) hc rfl
    have hkid : d ∈ (walk r nodes n a).filter (r c ·) := by
      rw [h.filter_walk hn hwalk]
      exact mem_kids.mpr ⟨hd, hcd⟩
    exact (List.mem_filter.mp hkid).1

/-- The walk below the root meets every node once. -/
theorem walk_perm [DecidableEq α] (h : IsForest r nodes depth bound) {n : ℕ} {a : α}
    (hn : bound ≤ depth a + n)
    (hparents : ∀ d ∈ nodes, ∃ c, r c d ∧ (c = a ∨ c ∈ nodes)) :
    (walk r nodes n a).Perm nodes := by
  rw [List.perm_iff_count]
  intro d
  by_cases hd : d ∈ nodes
  · obtain ⟨c, hcd, hc⟩ := hparents d hd
    have hwalk : c = a ∨ c ∈ walk r nodes n a := hc.imp_right (h.mem_walk hn hparents)
    have hp : decide (r c d) = true := by simpa using hcd
    calc (walk r nodes n a).count d = ((walk r nodes n a).filter (r c ·)).count d :=
          (List.count_filter (p := (r c ·)) hp).symm
      _ = (kids r nodes c).count d := by rw [h.filter_walk hn hwalk]
      _ = nodes.count d := List.count_filter (p := (r c ·)) hp
  · have hwalk : d ∉ walk r nodes n a := fun hmem => hd (exists_parent_of_mem_walk hmem).1
    rw [List.count_eq_zero_of_not_mem hd, List.count_eq_zero_of_not_mem hwalk]

end IsForest

end Forest
