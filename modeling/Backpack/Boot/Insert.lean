import Backpack.Boot.ListModulesTheorems
import Backpack.UnionFs

/-!
# Stacking up the modules

`union_insert_modules` mounts the modules that `list_modules` prints, one after the other,
and inserts each of them below the read-write branch.
-/

namespace Backpack.Boot

open Shell UnionFs

/-- A read-only branch of the union: the module, the directory it is mounted on, and what is
seen there. -/
structure Branch (α : Type) where
  source : Text
  target : Text
  tree : DirTree α

/-- The directories in `$IMAGES` and the branches of the union, index 1 first. -/
structure Images (α : Type) where
  existing : List Text
  branches : List (Branch α)

/-- `while [ -e $TARGET ]; do TARGET=$TARGET.X; done` -/
def freshTarget (existing : List Text) : ℕ → Text → Text
  | 0, target => target
  | fuel + 1, target =>
    if target ∈ existing then freshTarget existing fuel (target ++ ['.', 'X']) else target

variable {α : Type}

/-- What the kernel makes of the calls of `mount` and `unionctl`: what is seen after mounting
a module, `none` when that fails, and whether a directory can be inserted. -/
structure Mounter (α : Type) where
  mount : Text → Option (DirTree α)
  inserts : Text → Bool

/-- `union_insert_module`. A failed mount goes unnoticed, because `mount_module` ends in an
`echo`: the directory is then inserted as it is, empty. -/
def insertModule (k : Mounter α) (images : Text) (s : Images α) (mod : Text) : Images α :=
  let target := freshTarget s.existing (s.existing.length + 1) (images ++ '/' :: basename (words mod))
  { existing := target :: s.existing
    branches :=
      if k.inserts target then ⟨mod, target, (k.mount mod).getD emptyTree⟩ :: s.branches
      else s.branches }

/-- `list_modules $2 | while read MODULE; do union_insert_module $1 $MODULE $3; done` -/
def unionInsertModules (k : Mounter α) (images : Text) (modules : Text) (s : Images α) :
    Images α :=
  (readValues modules).foldl (insertModule k images) s

/-! ## The search for a directory ends -/

theorem freshTarget_eq (existing : List Text) (fuel : ℕ) (target : Text) :
    freshTarget existing fuel target ∉ existing ∨
      ∀ k < fuel, target ++ (List.replicate k ['.', 'X']).flatten ∈ existing := by
  induction fuel generalizing target with
  | zero => exact Or.inr fun k hk => absurd hk (Nat.not_lt_zero k)
  | succ fuel ih =>
    unfold freshTarget
    split_ifs with h
    · rcases ih (target ++ ['.', 'X']) with hnot | hall
      · exact Or.inl hnot
      · refine Or.inr fun k hk => ?_
        cases k with
        | zero => simpa using h
        | succ k => simpa [List.replicate_succ] using hall k (by omega)
    · exact Or.inl h

/-- One attempt more than there are directories is enough. -/
theorem freshTarget_not_mem (existing : List Text) (target : Text) :
    freshTarget existing (existing.length + 1) target ∉ existing := by
  rcases freshTarget_eq existing (existing.length + 1) target with hnot | hall
  · exact hnot
  -- more different names than directories
  have hinj : Function.Injective fun k => target ++ (List.replicate k ['.', 'X']).flatten := by
    intro k l hkl
    have hlen := congrArg List.length (List.append_cancel_left hkl)
    simp at hlen
    omega
  have hsub : ((List.range (existing.length + 1)).map fun k =>
      target ++ (List.replicate k ['.', 'X']).flatten) ⊆ existing := by
    intro p hp
    obtain ⟨k, hk, rfl⟩ := List.mem_map.mp hp
    exact hall k (List.mem_range.mp hk)
  have hle := (List.subperm_of_subset ((List.nodup_range).map hinj) hsub).length_le
  rw [List.length_map, List.length_range] at hle
  omega

/-! ## The stack -/

/-- The branches are modules of the list, the last one on top, each with what its mount
shows. -/
theorem foldl_insertModule {k : Mounter α} {images : Text} {ps : List Text} {s : Images α} :
    ∃ qs, qs.Sublist ps ∧
      (ps.foldl (insertModule k images) s).branches.map (fun b => (b.source, b.tree)) =
        (qs.map fun p => (p, (k.mount p).getD emptyTree)).reverse ++
          s.branches.map (fun b => (b.source, b.tree)) ∧
      ((∀ t, k.inserts t = true) → qs = ps) := by
  induction ps generalizing s with
  | nil => exact ⟨[], List.Sublist.refl _, rfl, fun _ => rfl⟩
  | cons p ps ih =>
    rcases @ih (insertModule k images s p) with ⟨qs, hqs, heq, hall⟩
    rw [List.foldl_cons, heq]
    by_cases hins : k.inserts (freshTarget s.existing (s.existing.length + 1)
        (images ++ '/' :: basename (words p))) = true
    · refine ⟨p :: qs, hqs.cons_cons p, by simp [insertModule, hins], fun h => ?_⟩
      rw [hall h]
    · refine ⟨qs, hqs.cons p, by simp [insertModule, hins], fun h => absurd (h _) hins⟩

/-- `union_insert_modules` on a data directory. -/
theorem unionInsertModules_eq (k : Mounter α) (images : Text) (d : DataDir) (load order : Text)
    (s : Images α) :
    unionInsertModules k images (listModulesFor d.root d.files load order) s =
      (printedPaths d.root d.files load order).foldl (insertModule k images) s := by
  unfold unionInsertModules
  rw [d.listModulesFor_eq, readValues_unlines fun p hp => (d.printedPaths_word load order p hp).1]

end Backpack.Boot
