import Mathlib

/-!
# Stacks of directory trees seen as one tree

A layer is a directory tree with two kinds of marks: a whiteout for a name hides that name
of the layers below, and a sealed directory hides everything the layers below have in it.
`view` is the one tree a stack of layers shows. Directories of the same name are merged,
and of anything else the topmost wins.

The results are about changes to the topmost layer alone: how it must be edited so that
the view changes as a single tree would, at one place and nowhere else.
-/

namespace Overlay

variable {ν ι α : Type}

/-- What an entry of a tree is. -/
inductive Inode (α : Type) where
  | dir (attr : α)
  | reg (attr : α)
  | other (attr : α)
deriving DecidableEq, Repr

def Inode.isDir : Inode α → Bool
  | .dir _ => true
  | _ => false

def Inode.isReg : Inode α → Bool
  | .reg _ => true
  | _ => false

/-! ## One tree -/

/-- A directory tree: what stands at the end of a list of names. -/
abbrev Flat (ν α : Type) := List ν → Option (Inode α)

/-- There is a directory at `p`. -/
def Flat.IsDirAt (V : Flat ν α) (p : List ν) : Prop := (V p).any Inode.isDir = true

instance (V : Flat ν α) (p : List ν) : Decidable (V.IsDirAt p) :=
  inferInstanceAs (Decidable (_ = _))

theorem Flat.isDirAt_iff {V : Flat ν α} {p : List ν} :
    V.IsDirAt p ↔ ∃ i, V p = some i ∧ i.isDir = true := by
  cases h : V p <;> simp [Flat.IsDirAt, h]

theorem Flat.IsDirAt.ne_none {V : Flat ν α} {p : List ν} (h : V.IsDirAt p) : V p ≠ none := by
  intro hnone
  simp [Flat.IsDirAt, hnone] at h

theorem Flat.not_isDirAt {V : Flat ν α} {p : List ν} (h : V p = none) : ¬ V.IsDirAt p :=
  fun hdir => hdir.ne_none h

/-- Only directories have entries in them. -/
def Flat.Closed (V : Flat ν α) : Prop := ∀ p n, V (p ++ [n]) ≠ none → V.IsDirAt p

/-- `x` is put at `p`, with nothing in it; nothing is left there when `x` is `none`. -/
def Flat.set [DecidableEq ν] (V : Flat ν α) (p : List ν) (x : Option (Inode α)) : Flat ν α :=
  fun q => if p <+: q then if q = p then x else none else V q

/-- The entry at `p` is replaced and what is in it is kept. -/
def Flat.alter [DecidableEq ν] (V : Flat ν α) (p : List ν) (x : Inode α) : Flat ν α := fun q =>
  if q = p then some x else V q

/-- Above anything there is a directory. -/
theorem Flat.Closed.isDirAt_append {V : Flat ν α} (h : V.Closed) {p r : List ν} (hr : r ≠ [])
    (hv : V (p ++ r) ≠ none) : V.IsDirAt p := by
  induction r using List.reverseRecOn with
  | nil => exact absurd rfl hr
  | append_singleton r n ih =>
    rw [← List.append_assoc] at hv
    have hd := h _ _ hv
    by_cases hnil : r = []
    · simpa [hnil] using hd
    · apply ih hnil
      exact hd.ne_none

/-- Below what is no directory there is nothing. -/
theorem Flat.Closed.none_append {V : Flat ν α} (h : V.Closed) {p r : List ν} (hr : r ≠ [])
    (hv : ¬ V.IsDirAt p) : V (p ++ r) = none := by
  by_contra hsome
  exact hv (h.isDirAt_append hr hsome)

/-! ## Layers -/

/-- A tree with its whiteouts and its sealed directories. -/
@[ext]
structure Layer (ν α : Type) where
  entry : Flat ν α
  /-- the entry of this name is hidden in the layers below -/
  whiteout : List ν → Bool
  /-- everything the layers below have in this directory is hidden -/
  closedOff : List ν → Bool

/-- What the layer has in its directory `n`. -/
def Layer.sub (t : Layer ν α) (n : ν) : Layer ν α where
  entry p := t.entry (n :: p)
  whiteout p := t.whiteout (n :: p)
  closedOff p := t.closedOff (n :: p)

/-- What the layer has at the end of a list of names. -/
def Layer.subAt (t : Layer ν α) (p : List ν) : Layer ν α where
  entry q := t.entry (p ++ q)
  whiteout q := t.whiteout (p ++ q)
  closedOff q := t.closedOff (p ++ q)

/-- A layer that has nothing at all. -/
def Layer.void : Layer ν α := ⟨fun _ => none, fun _ => false, fun _ => false⟩

/-- A directory and nothing in it. -/
def Layer.empty (i : Inode α) : Layer ν α where
  entry
    | [] => some i
    | _ :: _ => none
  whiteout _ := false
  closedOff _ := false

/-- Entries and marks are in directories only. -/
structure Layer.Closed (t : Layer ν α) : Prop where
  entry : t.entry.Closed
  whiteout : ∀ p n, t.whiteout (p ++ [n]) = true → t.entry.IsDirAt p
  closedOff : ∀ p, t.closedOff p = true → t.entry.IsDirAt p

@[simp] theorem Layer.subAt_nil (t : Layer ν α) : t.subAt [] = t := rfl

/-- A layer is cut down name by name. -/
theorem Layer.sub_subAt (t : Layer ν α) (p : List ν) (n : ν) :
    (t.subAt p).sub n = t.subAt (p ++ [n]) := by
  simp [Layer.sub, Layer.subAt]

theorem Layer.Closed.sub {t : Layer ν α} (h : t.Closed) (n : ν) : (t.sub n).Closed :=
  ⟨fun p m => h.entry (n :: p) m, fun p m => h.whiteout (n :: p) m, fun p => h.closedOff (n :: p)⟩

/-- An empty layer is closed. -/
theorem Layer.closed_empty {i : Inode α} : (Layer.empty (ν := ν) i).Closed := by
  refine ⟨fun p n h => ?_, fun p n h => ?_, fun p h => ?_⟩
  · cases p <;> simp [Layer.empty] at h
  · simp [Layer.empty] at h
  · simp [Layer.empty] at h

/-! ## The view -/

/-- Below a directory of the view only directories are merged with it. -/
def below (n : ν) (f : ι → Layer ν α) : List ι → List ι
  | [] => []
  | i :: is =>
    if (f i).whiteout [n] then []
    else if (f i).entry.IsDirAt [n] then i :: if (f i).closedOff [n] then [] else below n f is
    else below n f is

/-- The layers that show something at `n`, top first: the topmost that has it, and when that is a
directory the directories below it. -/
def found (n : ν) (f : ι → Layer ν α) : List ι → List ι
  | [] => []
  | i :: is =>
    if (f i).whiteout [n] then []
    else if (f i).entry.IsDirAt [n] then i :: if (f i).closedOff [n] then [] else below n f is
    else if (f i).entry [n] = none then found n f is
    else [i]

/-- The layers as they are in the directory `n` of the view. -/
def children (ls : List (Layer ν α)) (n : ν) : List (Layer ν α) := (found n id ls).map (·.sub n)

/-- The same below a layer that has a directory `n`. -/
def dirsBelow (ls : List (Layer ν α)) (n : ν) : List (Layer ν α) := (below n id ls).map (·.sub n)

/-- The one tree that the layers show. -/
def view : List (Layer ν α) → Flat ν α
  | ls, [] => ls.head?.bind fun t => t.entry []
  | ls, n :: p => view (children ls n) p

@[simp] theorem view_nil (p : List ν) : view ([] : List (Layer ν α)) p = none := by
  induction p with
  | nil => rfl
  | cons n p ih => exact ih

@[simp] theorem view_cons_nil (t : Layer ν α) (ls : List (Layer ν α)) :
    view (t :: ls) [] = t.entry [] := rfl

theorem view_cons (ls : List (Layer ν α)) (n : ν) (p : List ν) :
    view ls (n :: p) = view (children ls n) p := rfl

/-- The layer `s` on top of directories to merge with it, or of what shows where it has nothing. -/
def merge (s : Layer ν α) (dirs rest : List (Layer ν α)) : List (Layer ν α) :=
  if s.whiteout [] then []
  else if s.entry.IsDirAt [] then s :: if s.closedOff [] then [] else dirs
  else if s.entry [] = none then rest
  else [s]

/-- One more layer on top, below a name. -/
theorem children_cons (t : Layer ν α) (ls : List (Layer ν α)) (n : ν) :
    children (t :: ls) n = merge (t.sub n) (dirsBelow ls n) (children ls n) := by
  have h : ((t.sub n).entry.IsDirAt []) = t.entry.IsDirAt [n] := rfl
  have hentry : (t.sub n).entry [] = t.entry [n] := rfl
  have hwh : (t.sub n).whiteout [] = t.whiteout [n] := rfl
  have hoff : (t.sub n).closedOff [] = t.closedOff [n] := rfl
  simp only [children, dirsBelow, found, merge, id, h, hentry, hwh, hoff]
  split_ifs <;> rfl

/-- A directory is laid over the directories of the layers below, unless it is closed off. -/
theorem merge_dir {s : Layer ν α} (hw : s.whiteout [] = false) (hd : s.entry.IsDirAt [])
    (dirs rest : List (Layer ν α)) :
    merge s dirs rest = s :: if s.closedOff [] then [] else dirs := by
  simp [merge, hw, hd]

/-- A layer without the name leaves what lies below it. -/
theorem merge_absent {s : Layer ν α} (hw : s.whiteout [] = false) (h : s.entry [] = none)
    (dirs rest : List (Layer ν α)) : merge s dirs rest = rest := by
  simp [merge, hw, h, Flat.IsDirAt]

/-- A file hides what lies below it. -/
theorem merge_other {s : Layer ν α} (hw : s.whiteout [] = false) (hd : ¬ s.entry.IsDirAt [])
    (h : s.entry [] ≠ none) (dirs rest : List (Layer ν α)) : merge s dirs rest = [s] := by
  simp [merge, hw, h, hd]

/-- So does a whiteout. -/
theorem merge_whiteout {s : Layer ν α} (hw : s.whiteout [] = true) (dirs rest : List (Layer ν α)) :
    merge s dirs rest = [] := by
  simp [merge, hw]

/-- The directories below a name may be taken by number or by layer. -/
theorem below_map {κ : Type} (n : ν) (g : κ → Layer ν α) (f : ι → κ) (is : List ι) :
    (below n (g ∘ f) is).map f = below n g (is.map f) := by
  induction is with
  | nil => rfl
  | cons i is ih => simp only [below, List.map_cons, Function.comp_apply, ← ih]; split_ifs <;> rfl

/-- What is found may be taken by number or by layer. -/
theorem found_map {κ : Type} (n : ν) (g : κ → Layer ν α) (f : ι → κ) (is : List ι) :
    (found n (g ∘ f) is).map f = found n g (is.map f) := by
  induction is with
  | nil => rfl
  | cons i is ih =>
    simp only [found, List.map_cons, Function.comp_apply, ← ih, ← below_map]
    split_ifs <;> rfl

theorem below_sublist (n : ν) (f : ι → Layer ν α) (is : List ι) : (below n f is).Sublist is := by
  induction is with
  | nil => simp [below]
  | cons i is ih =>
    unfold below
    split_ifs
    · exact List.nil_sublist _
    · simp
    · exact ih.cons_cons i
    · exact ih.cons i

theorem found_sublist (n : ν) (f : ι → Layer ν α) (is : List ι) : (found n f is).Sublist is := by
  induction is with
  | nil => simp [found]
  | cons i is ih =>
    unfold found
    split_ifs
    · exact List.nil_sublist _
    · simp
    · exact (below_sublist n f is).cons_cons i
    · exact ih.cons i
    · simp

/-- A name shows when a layer has it and neither that one nor one above it has a whiteout. -/
theorem found_ne_nil_iff {n : ν} {f : ι → Layer ν α} {is : List ι} :
    found n f is ≠ [] ↔ ∃ l j r, is = l ++ j :: r ∧ (f j).entry [n] ≠ none ∧
      ∀ i ∈ l ++ [j], ¬ (f i).whiteout [n] = true := by
  induction is with
  | nil => simp [found]
  | cons k is ih =>
    rw [found]
    by_cases hw : (f k).whiteout [n] = true
    · rw [if_pos hw]
      refine ⟨fun h => absurd rfl h, fun ⟨l, j, r, hsplit, _, hleft⟩ => ?_⟩
      have hk : k ∈ l ++ [j] := by
        cases l with
        | nil => simp [(List.cons.inj hsplit).1]
        | cons a l => simp [(List.cons.inj hsplit).1]
      exact absurd hw (hleft k hk)
    rw [if_neg hw]
    by_cases he : (f k).entry [n] = none
    · rw [if_neg (Flat.not_isDirAt he), if_pos he, ih]
      constructor
      · intro ⟨l, j, r, hsplit, hsome, hleft⟩
        refine ⟨k :: l, j, r, by rw [hsplit]; rfl, hsome, fun i hi => ?_⟩
        rcases List.mem_cons.mp hi with hi | hi
        · exact hi ▸ hw
        · exact hleft i hi
      · intro ⟨l, j, r, hsplit, hsome, hleft⟩
        cases l with
        | nil =>
          rw [List.nil_append, List.cons.injEq] at hsplit
          exact absurd (hsplit.1 ▸ he) hsome
        | cons a l =>
          rw [List.cons_append, List.cons.injEq] at hsplit
          exact ⟨l, j, r, hsplit.2, hsome, fun i hi => hleft i (List.mem_cons_of_mem a hi)⟩
    · have hhead : ∃ l j r, k :: is = l ++ j :: r ∧ (f j).entry [n] ≠ none ∧
          ∀ i ∈ l ++ [j], ¬ (f i).whiteout [n] = true :=
        ⟨[], k, is, rfl, he, fun i hi => by rw [List.mem_singleton.mp hi]; exact hw⟩
      refine ⟨fun _ => hhead, fun _ => ?_⟩
      split_ifs <;> simp

/-- Only directories are merged. -/
theorem isDirAt_of_mem_below {n : ν} {f : ι → Layer ν α} {is : List ι} {i : ι}
    (h : i ∈ below n f is) : (f i).entry.IsDirAt [n] := by
  induction is with
  | nil => simp [below] at h
  | cons j is ih =>
    unfold below at h
    split_ifs at h with hw hdir hoff
    · simp at h
    · simp only [List.mem_cons, List.not_mem_nil, or_false] at h
      exact h ▸ hdir
    · rcases List.mem_cons.mp h with rfl | htail
      · exact hdir
      · exact ih htail
    · exact ih h

/-- What shows something at `n` is one layer, or only directories. -/
theorem found_cases (n : ν) (f : ι → Layer ν α) (is : List ι) :
    (∃ i, found n f is = [i] ∧ ¬ (f i).entry.IsDirAt [n] ∧ (f i).entry [n] ≠ none) ∨
      (∀ i ∈ found n f is, (f i).entry.IsDirAt [n]) ∧ found n f is = below n f is := by
  induction is with
  | nil => exact .inr ⟨by simp [found], rfl⟩
  | cons i is ih =>
    rw [found, below]
    split_ifs with hw hdir hoff hsome
    · exact .inr ⟨by simp, rfl⟩
    · exact .inr ⟨by simpa using hdir, rfl⟩
    · refine .inr ⟨fun j hj => ?_, rfl⟩
      rcases List.mem_cons.mp hj with rfl | hj
      · exact hdir
      · exact isDirAt_of_mem_below hj
    · exact ih
    · exact .inl ⟨i, rfl, hdir, hsome⟩

/-- Where one layer has a directory the view has one too. -/
def Rooted (ls : List (Layer ν α)) : Prop := ∀ t ∈ ls, t.entry.IsDirAt [] → (view ls).IsDirAt []

/-- The layers merged below a name show a directory when one of them is one. -/
theorem rooted_children (ls : List (Layer ν α)) (n : ν) : Rooted (children ls n) := by
  intro t ht hd
  have ⟨i, hi, hsub⟩ := List.mem_map.mp ht
  rcases found_cases n id ls with ⟨j, hone, -, -⟩ | ⟨hdirs, -⟩
  · have hj : t = j.sub n := by
      rw [hone, List.mem_singleton] at hi
      rw [← hsub, hi]
    rw [children, hone]
    rw [hj] at hd
    exact hd
  · rw [children]
    cases hfound : found n id ls with
    | nil => rw [hfound] at hi; exact absurd hi (List.not_mem_nil)
    | cons j js => exact hdirs j (by rw [hfound]; exact List.mem_cons_self)

/-- What the view shows is an entry of some layer. -/
theorem exists_entry_of_view {ls : List (Layer ν α)} {p : List ν} {x : Inode α}
    (h : view ls p = some x) : ∃ t ∈ ls, t.entry p = some x := by
  induction p generalizing ls with
  | nil =>
    cases ls with
    | nil => simp [view] at h
    | cons t ls => exact ⟨t, List.mem_cons_self, h⟩
  | cons n p ih =>
    have ⟨t, ht, hx⟩ := ih h
    have ⟨u, hu, hsub⟩ := List.mem_map.mp ht
    exact ⟨u, (found_sublist n id ls).subset hu, by rwa [← hsub] at hx⟩

/-- Closed layers are closed below a name. -/
theorem closed_children {ls : List (Layer ν α)} (h : ∀ t ∈ ls, t.Closed) (n : ν) :
    ∀ t ∈ children ls n, t.Closed := by
  intro t ht
  have ⟨i, hi, hsub⟩ := List.mem_map.mp ht
  exact hsub ▸ (h i ((found_sublist n id ls).subset hi)).sub n

/-- Closed layers have closed directories. -/
theorem closed_dirsBelow {ls : List (Layer ν α)} (h : ∀ t ∈ ls, t.Closed) (n : ν) :
    ∀ t ∈ dirsBelow ls n, t.Closed := by
  intro t ht
  have ⟨i, hi, hsub⟩ := List.mem_map.mp ht
  exact hsub ▸ (h i ((below_sublist n id ls).subset hi)).sub n

/-- The view of layers that are trees is a tree. -/
theorem view_closed {ls : List (Layer ν α)} (h : ∀ t ∈ ls, t.Closed) (hr : Rooted ls) :
    (view ls).Closed := by
  intro p n hv
  induction p generalizing ls with
  | nil =>
    rw [List.nil_append, view_cons] at hv
    cases hfound : found n id ls with
    | nil => simp [children, hfound] at hv
    | cons i is =>
      have hmem : i ∈ ls :=
        (found_sublist n id ls).subset (by rw [hfound]; exact List.mem_cons_self)
      rw [children, hfound] at hv
      exact hr i hmem ((h i hmem).entry [] n hv)
  | cons m p ih => exact ih (closed_children h m) (rooted_children ls m) hv

/-- A directory deeper down is one of the merged layers below the name. -/
theorem isDirAt_children {ls : List (Layer ν α)} (h : ∀ t ∈ ls, t.Closed) {m : ν} {p : List ν}
    (hd : (view ls).IsDirAt (m :: p)) : (view (children ls m)).IsDirAt [] := by
  by_cases hnil : p = []
  · rw [hnil] at hd
    exact hd
  · have hcl := view_closed (closed_children h m) (rooted_children ls m)
    exact hcl.isDirAt_append (p := []) hnil hd.ne_none

/-- A directory shown by the layers below is merged with what is put in it above. -/
theorem children_eq_dirsBelow {ls : List (Layer ν α)} {m : ν}
    (hd : (view (children ls m)).IsDirAt []) : children ls m = dirsBelow ls m := by
  rcases found_cases m id ls with ⟨i, hone, hfile, -⟩ | ⟨-, hbelow⟩
  · rw [children, hone] at hd
    exact absurd hd hfile
  · rw [children, dirsBelow, hbelow]

/-- An empty layer on top shows what lies below it. -/
theorem view_empty {i : Inode α} {ls : List (Layer ν α)} (h : view ls [] = some i) :
    view (Layer.empty i :: ls) = view ls := by
  funext p
  cases p with
  | nil => exact h.symm
  | cons n p => rw [view_cons, children_cons, merge_absent rfl rfl, view_cons]

/-- A layer has nothing in a directory that it lacks. -/
theorem Layer.Closed.sub_absent {t : Layer ν α} (ht : t.Closed) {m : ν} (h : t.entry [m] = none)
    (hw : t.whiteout [m] = false) : t.sub m = Layer.void := by
  have hd : ¬ t.entry.IsDirAt [m] := Flat.not_isDirAt h
  have hentry : ∀ q, t.entry (m :: q) = none := by
    intro q
    by_cases hq : q = []
    · rw [hq, h]
    · exact ht.entry.none_append (p := [m]) hq hd
  have hfile : ∀ q, ¬ t.entry.IsDirAt (m :: q) := fun q => Flat.not_isDirAt (hentry q)
  have hwh : ∀ q, t.whiteout (m :: q) = false := by
    intro q
    induction q using List.reverseRecOn with
    | nil => exact hw
    | append_singleton r n _ =>
      by_contra hsome
      exact hfile r (ht.whiteout (m :: r) n (by simpa using hsome))
  have hoff : ∀ q, t.closedOff (m :: q) = false := by
    intro q
    by_contra hsome
    exact hfile q (ht.closedOff _ (by simpa using hsome))
  simp only [Layer.sub, Layer.void, hentry, hwh, hoff]

/-- A whiteout of the topmost layer hides. -/
theorem view_whiteout {t : Layer ν α} (ht : t.Closed) {p : List ν} (hp : p ≠ [])
    (h : t.whiteout p = true) (ls : List (Layer ν α)) : view (t :: ls) p = none := by
  induction p generalizing t ls with
  | nil => exact absurd rfl hp
  | cons n p ih =>
    rw [view_cons, children_cons]
    by_cases hw : t.whiteout [n] = true
    · rw [merge_whiteout hw, view_nil]
    · have hp' : p ≠ [] := fun hnil => hw (hnil ▸ h)
      have hd : t.entry.IsDirAt [n] := by
        have ⟨r, m, hr⟩ := (List.eq_nil_or_concat p).resolve_left hp'
        rw [List.concat_eq_append] at hr
        have hdir := ht.whiteout (n :: r) m (by rw [List.cons_append, ← hr]; exact h)
        by_cases hr0 : r = []
        · exact hr0 ▸ hdir
        · exact ht.entry.isDirAt_append (p := [n]) hr0 hdir.ne_none
      rw [merge_dir (by simpa [Layer.sub] using hw) hd]
      exact ih (ht.sub n) hp' h _

/-- What the topmost layer has shows, where the layer hides nothing of its own. -/
theorem view_top {t : Layer ν α} (ht : t.Closed)
    (hw : ∀ q, t.whiteout q = true → t.entry q = none) {p : List ν} {x : Inode α}
    (h : t.entry p = some x) (ls : List (Layer ν α)) : view (t :: ls) p = some x := by
  induction p generalizing t ls with
  | nil => exact h
  | cons n p ih =>
    have hn : t.entry [n] ≠ none := by
      intro hnone
      by_cases hp : p = []
      · rw [hp, hnone] at h
        simp at h
      · have hbelow := ht.entry.none_append (p := [n]) hp (Flat.not_isDirAt hnone)
        rw [List.singleton_append, h] at hbelow
        simp at hbelow
    have hw' : (t.sub n).whiteout [] = false := by
      by_contra hsome
      exact hn (hw [n] (by simpa [Layer.sub] using hsome))
    have key : ∀ us, view (t.sub n :: us) p = some x := fun us =>
      ih (ht.sub n) (fun q => hw (n :: q)) h us
    rw [view_cons, children_cons]
    by_cases hd : (t.sub n).entry.IsDirAt []
    · rw [merge_dir hw' hd]
      exact key _
    · rw [merge_other hw' hd hn]
      exact key _

/-- A layer with nothing at all shows what lies below it. -/
theorem view_void_cons (ls : List (Layer ν α)) (m : ν) (r : List ν) :
    view (Layer.void :: ls) (m :: r) = view ls (m :: r) := by
  rw [view_cons, children_cons, merge_absent rfl rfl, view_cons]

/-! ## Changes to the topmost layer -/

section Edit

variable [DecidableEq ν]

/-- A change to what is in the directory at `dir`. -/
def Flat.editAt (V : Flat ν α) (dir : List ν) (G : Flat ν α → Flat ν α) : Flat ν α := fun q =>
  if dir <+: q then G (fun r => V (dir ++ r)) (q.drop dir.length) else V q

def Layer.editAt (t : Layer ν α) (dir : List ν) (E : Layer ν α → Layer ν α) : Layer ν α where
  entry q := if dir <+: q then (E (t.subAt dir)).entry (q.drop dir.length) else t.entry q
  whiteout q := if dir <+: q then (E (t.subAt dir)).whiteout (q.drop dir.length) else t.whiteout q
  closedOff q :=
    if dir <+: q then (E (t.subAt dir)).closedOff (q.drop dir.length) else t.closedOff q

/-- The directories down to `dir` are made as `V` has them, where the layer lacks them. -/
def Layer.copyUp (t : Layer ν α) (V : Flat ν α) (dir : List ν) : Layer ν α where
  entry q := if q <+: dir then (t.entry q).or (V q) else t.entry q
  whiteout := t.whiteout
  closedOff := t.closedOff

/-- An edit of a directory that keeps the directory itself. -/
structure KeepsRoot (E : Layer ν α → Layer ν α) : Prop where
  entry : ∀ t, (E t).entry [] = t.entry []
  whiteout : ∀ t, (E t).whiteout [] = t.whiteout []
  closedOff : ∀ t, (E t).closedOff [] = t.closedOff []

/-- The root is there already and is not copied up. -/
theorem copyUp_nil {t : Layer ν α} (h : t.entry.IsDirAt []) (V : Flat ν α) :
    t.copyUp V [] = t := by
  have ⟨i, hi, _⟩ := Flat.isDirAt_iff.mp h
  have hentry : (t.copyUp V []).entry = t.entry := by
    funext q
    by_cases hnil : q = []
    · simp [Layer.copyUp, hnil, hi]
    · simp [Layer.copyUp, hnil]
  cases t
  simpa [Layer.copyUp] using hentry

/-- An edit at the root is the edit. -/
theorem editAt_nil (t : Layer ν α) (E : Layer ν α → Layer ν α) : t.editAt [] E = E t := by
  simp [Layer.editAt]

/-- Copying up, seen below the first name, is copying up there. -/
theorem sub_copyUp (t : Layer ν α) (V : Flat ν α) (m : ν) (dir : List ν) :
    (t.copyUp V (m :: dir)).sub m = (t.sub m).copyUp (fun q => V (m :: q)) dir := by
  simp [Layer.sub, Layer.copyUp]

/-- An edit further down, seen below the first name, is the edit there. -/
theorem sub_editAt (t : Layer ν α) (E : Layer ν α → Layer ν α) (m : ν) (dir : List ν) :
    (t.editAt (m :: dir) E).sub m = (t.sub m).editAt dir E := by
  simp [Layer.sub, Layer.editAt, Layer.subAt]

/-- A directory that the layer lacks is made empty. -/
theorem copyUp_void {V : Flat ν α} {i : Inode α} (hi : V [] = some i) (dir : List ν) :
    Layer.void.copyUp V dir = (Layer.empty i).copyUp V dir := by
  simp only [Layer.copyUp, Layer.void, Layer.empty, Layer.mk.injEq, and_true]
  funext q
  cases q with
  | nil => simp [hi]
  | cons n q => simp

/-- An edit further down leaves the entry and the marks of the first directory. -/
theorem editAt_head {E : Layer ν α → Layer ν α} (hE : KeepsRoot E) (t : Layer ν α) (m : ν)
    (dir : List ν) :
    (t.editAt (m :: dir) E).entry [m] = t.entry [m] ∧
      (t.editAt (m :: dir) E).whiteout [m] = t.whiteout [m] ∧
      (t.editAt (m :: dir) E).closedOff [m] = t.closedOff [m] := by
  cases dir with
  | nil => simp [Layer.editAt, hE.entry, hE.whiteout, hE.closedOff, Layer.subAt]
  | cons k dir => simp [Layer.editAt]

/-- An edit in `m` leaves what is beside `m`. -/
theorem sub_editAt_of_ne (t : Layer ν α) (E : Layer ν α → Layer ν α) (V : Flat ν α)
    {m k : ν} (h : k ≠ m) (dir : List ν) :
    ((t.copyUp V (m :: dir)).editAt (m :: dir) E).sub k = t.sub k := by
  have hbelow : ∀ q, ¬ (m :: dir) <+: (k :: q) := fun q hpre' =>
    h (List.cons_prefix_cons.mp hpre').1.symm
  have hpre : ∀ q, ¬ (k :: q) <+: (m :: dir) := fun q hpre' =>
    h (List.cons_prefix_cons.mp hpre').1
  simp [Layer.sub, Layer.editAt, Layer.copyUp, hbelow, hpre]

/-- What an edit does to the directory it is made in, it does to the view. The directories above
are copied up first, so that there is a directory to edit. -/
theorem view_editAt {E : Layer ν α → Layer ν α} {G : Flat ν α → Flat ν α} (hE : KeepsRoot E)
    {t : Layer ν α} {ls : List (Layer ν α)} (ht : t.Closed) (hr : t.entry.IsDirAt [])
    (hls : ∀ l ∈ ls, l.Closed) {dir : List ν} (hd : (view (t :: ls)).IsDirAt dir)
    (hG : ∀ u : Layer ν α, ∀ us, u.Closed → u.entry.IsDirAt [] → (∀ l ∈ us, l.Closed) →
      view (u :: us) = (fun r => view (t :: ls) (dir ++ r)) →
      view (E u :: us) = G (view (u :: us))) :
    view ((t.copyUp (view (t :: ls)) dir).editAt dir E :: ls) = (view (t :: ls)).editAt dir G := by
  induction dir generalizing t ls with
  | nil =>
    rw [copyUp_nil hr, editAt_nil, hG t ls ht hr hls rfl]
    funext q
    simp [Flat.editAt]
  | cons m dir ih =>
    set V := view (t :: ls) with hV
    set t' := (t.copyUp V (m :: dir)).editAt (m :: dir) E with ht'
    have hall : ∀ l ∈ t :: ls, l.Closed := List.forall_mem_cons.mpr ⟨ht, hls⟩
    have hi : (view (children (t :: ls) m)).IsDirAt [] := isDirAt_children hall hd
    have hs : t'.sub m = ((t.sub m).copyUp (view (children (t :: ls) m)) dir).editAt dir E := by
      rw [ht', sub_editAt, sub_copyUp]
      rfl
    have ⟨he, hw, hc⟩ := editAt_head hE (t.copyUp V (m :: dir)) m dir
    have he' : (t'.sub m).entry [] = (t.entry [m]).or (V [m]) := by
      show t'.entry [m] = _
      rw [he]
      simp [Layer.copyUp]
    have hde : (view (children (t :: ls) m)).IsDirAt dir := hd
    -- the view from `m` on, by the hypothesis for `dir`
    have key : view (children (t' :: ls) m) = (view (children (t :: ls) m)).editAt dir G := by
      rw [children_cons]
      by_cases hwt : t.whiteout [m] = true
      · rw [children_cons, merge_whiteout hwt] at hi
        exact absurd (view_nil []) hi.ne_none
      have hwt : t.whiteout [m] = false := by simpa using hwt
      have hw' : (t'.sub m).whiteout [] = false := hw.trans hwt
      have hc' : (t'.sub m).closedOff [] = t.closedOff [m] := hc
      by_cases hdirt : t.entry.IsDirAt [m]
      · have ⟨i, hent, hdiri⟩ := Flat.isDirAt_iff.mp hdirt
        have hdirt' : (t'.sub m).entry.IsDirAt [] := by
          rw [Flat.IsDirAt, he', hent]
          exact hdiri
        have hchildren : children (t :: ls) m =
            t.sub m :: if t.closedOff [m] then [] else dirsBelow ls m := by
          rw [children_cons, merge_dir hwt hdirt]
          rfl
        rw [merge_dir hw' hdirt', hc', hs, hchildren]
        rw [hchildren] at hde
        refine ih (ht.sub m) hdirt ?_ hde (fun u us hu hdiru hus hview => hG u us hu hdiru hus ?_)
        · split_ifs
          · exact List.forall_mem_nil _
          · exact closed_dirsBelow hls m
        rw [hview, ← hchildren]
        rfl
      · by_cases hnone : t.entry [m] = none
        · have hchildren : children (t :: ls) m = children ls m := by
            rw [children_cons, merge_absent hwt hnone]
          rw [hchildren] at hi hde hs ⊢
          have ⟨i, hent, hdiri⟩ := Flat.isDirAt_iff.mp hi
          have hVm : V [m] = some i := by
            rw [hV, view_cons, hchildren, hent]
          have hdirt' : (t'.sub m).entry.IsDirAt [] := by
            rw [Flat.IsDirAt, he', hnone, hVm]
            exact hdiri
          have hoff : t.closedOff [m] = false := by
            by_contra hoff'
            exact hdirt (ht.closedOff [m] (by simpa using hoff'))
          have hempty : view (Layer.empty i :: children ls m) = view (children ls m) :=
            view_empty hent
          rw [merge_dir hw' hdirt', hc', hoff, hs, ht.sub_absent hnone hwt, copyUp_void hent,
            ← hempty, ← children_eq_dirsBelow hi]
          refine ih Layer.closed_empty hdiri (closed_children hls m) ?_
            (fun u us hu hdiru hus hview => hG u us hu hdiru hus ?_)
          · rw [hempty]
            exact hde
          · rw [hview, hempty, ← hchildren]
            rfl
        · rw [children_cons, merge_other hwt hdirt hnone] at hi
          exact absurd hi hdirt
    funext q
    cases q with
    | nil => simp [Flat.editAt, ht', hV, Layer.editAt, Layer.copyUp]
    | cons k q =>
      by_cases h : k = m
      · subst h
        rw [view_cons, key]
        simp [Flat.editAt, hV, view_cons]
      · have hpre : ¬ (m :: dir) <+: (k :: q) := fun hpre' =>
          h (List.cons_prefix_cons.mp hpre').1.symm
        rw [view_cons, children_cons, sub_editAt_of_ne t E V h dir, ← children_cons]
        simp [Flat.editAt, hpre, hV, view_cons]

/-- `x` is put at `p` and nothing of the layers below shows there; `none` hides what they have. -/
def Layer.graft (t : Layer ν α) (p : List ν) (x : Option (Inode α)) : Layer ν α where
  entry := t.entry.set p x
  whiteout q := if p <+: q then decide (q = p) && x.isNone else t.whiteout q
  closedOff q := if p <+: q then decide (q = p) && x.any Inode.isDir else t.closedOff q

/-- The entry at `p` is replaced, also in a layer that does not have it yet. -/
def Layer.alter (t : Layer ν α) (p : List ν) (x : Inode α) : Layer ν α where
  entry := t.entry.alter p x
  whiteout := t.whiteout
  closedOff := t.closedOff

/-- A name replaced in the top layer is replaced in the view. -/
theorem view_graft_one (t : Layer ν α) (ls : List (Layer ν α)) (n : ν) (x : Option (Inode α)) :
    view (t.graft [n] x :: ls) = (view (t :: ls)).set [n] x := by
  have hentry : ∀ r, ((t.graft [n] x).sub n).entry r = if r = [] then x else none := by
    simp [Layer.sub, Layer.graft, Flat.set]
  have hone : ∀ r, view [(t.graft [n] x).sub n] r = if r = [] then x else none := by
    intro r
    cases r with
    | nil => simp [hentry]
    | cons k r =>
      have hvoid : ((t.graft [n] x).sub n).sub k = Layer.void := by
        simp [Layer.sub, Layer.graft, Flat.set, Layer.void]
      rw [view_cons, children_cons, hvoid, merge_absent rfl rfl]
      simp [children, found]
  funext q
  cases q with
  | nil => simp [Layer.graft, Flat.set]
  | cons k r =>
    rw [view_cons, children_cons]
    by_cases h : k = n
    · subst h
      have hset : (view (t :: ls)).set [k] x (k :: r) = if r = [] then x else none := by
        simp [Flat.set]
      rw [hset]
      cases x with
      | none =>
        rw [merge_whiteout (by simp [Layer.sub, Layer.graft])]
        simp
      | some i =>
        have hw : ((t.graft [k] (some i)).sub k).whiteout [] = false := by
          simp [Layer.sub, Layer.graft]
        by_cases hi : i.isDir = true
        · have hc : ((t.graft [k] (some i)).sub k).closedOff [] = true := by
            simp [Layer.sub, Layer.graft, hi]
          rw [merge_dir hw (by simpa [Flat.IsDirAt, hentry] using hi), hc]
          exact hone r
        · have hne : ((t.graft [k] (some i)).sub k).entry [] ≠ none := by simp [hentry]
          rw [merge_other hw (by simpa [Flat.IsDirAt, hentry] using hi) hne]
          exact hone r
    · have hsub : (t.graft [n] x).sub k = t.sub k := by
        simp [Layer.sub, Layer.graft, Flat.set, Ne.symm h]
      rw [hsub, ← children_cons, ← view_cons]
      simp [Flat.set, Ne.symm h]

/-- Replacing a name keeps the root. -/
theorem keepsRoot_graft (n : ν) (x : Option (Inode α)) : KeepsRoot fun t => t.graft [n] x := by
  refine ⟨fun t => ?_, fun t => ?_, fun t => ?_⟩
  · simp [Layer.graft, Flat.set]
  · simp [Layer.graft]
  · simp [Layer.graft]

/-- Setting a path is setting the last name at its directory. -/
theorem set_append (V : Flat ν α) (dir : List ν) (n : ν) (x : Option (Inode α)) :
    V.set (dir ++ [n]) x = V.editAt dir (fun W => W.set [n] x) := by
  funext q
  by_cases h : dir <+: q
  · have ⟨r, hr⟩ := h
    subst hr
    simp [Flat.set, Flat.editAt, List.prefix_append_right_inj]
  · have hpre : ¬ dir ++ [n] <+: q := fun hpre' => h ((List.prefix_append _ _).trans hpre')
    simp [Flat.set, Flat.editAt, h, hpre]

/-- Changing a path is changing the last name at its directory. -/
theorem alter_append (V : Flat ν α) (dir : List ν) (n : ν) (i : Inode α) :
    V.alter (dir ++ [n]) i = V.editAt dir (fun W => W.alter [n] i) := by
  funext q
  by_cases h : dir <+: q
  · have ⟨r, hr⟩ := h
    subst hr
    simp [Flat.alter, Flat.editAt]
  · have hne : q ≠ dir ++ [n] := fun heq => h (heq ▸ List.prefix_append _ _)
    simp [Flat.alter, Flat.editAt, h, hne]

/-- Grafting at a path is grafting the last name at its directory. -/
theorem graft_append (t : Layer ν α) (dir : List ν) (n : ν) (x : Option (Inode α)) :
    t.graft (dir ++ [n]) x = t.editAt dir (fun u => u.graft [n] x) := by
  have hset := set_append t.entry dir n x
  simp only [Layer.graft, Layer.editAt, Layer.subAt, hset, Layer.mk.injEq]
  refine ⟨rfl, ?_, ?_⟩
  · funext q
    by_cases h : dir <+: q
    · have ⟨r, hr⟩ := h
      subst hr
      simp [List.prefix_append_right_inj]
    · have hpre : ¬ dir ++ [n] <+: q := fun hpre' => h ((List.prefix_append _ _).trans hpre')
      simp [h, hpre]
  · funext q
    by_cases h : dir <+: q
    · have ⟨r, hr⟩ := h
      subst hr
      simp [List.prefix_append_right_inj]
    · have hpre : ¬ dir ++ [n] <+: q := fun hpre' => h ((List.prefix_append _ _).trans hpre')
      simp [h, hpre]

/-- The same for a changed inode of a layer. -/
theorem layerAlter_append (t : Layer ν α) (dir : List ν) (n : ν) (i : Inode α) :
    t.alter (dir ++ [n]) i = t.editAt dir (fun u => u.alter [n] i) := by
  have halter := alter_append t.entry dir n i
  simp only [Layer.alter, Layer.editAt, Layer.subAt, halter, Layer.mk.injEq]
  refine ⟨rfl, ?_, ?_⟩
  · funext q
    by_cases h : dir <+: q
    · have ⟨r, hr⟩ := h
      subst hr
      simp
    · simp [h]
  · funext q
    by_cases h : dir <+: q
    · have ⟨r, hr⟩ := h
      subst hr
      simp
    · simp [h]

/-- Changing an inode below keeps the root. -/
theorem keepsRoot_alter (n : ν) (i : Inode α) : KeepsRoot fun t => t.alter [n] i := by
  refine ⟨fun t => ?_, fun t => rfl, fun t => rfl⟩
  simp [Layer.alter, Flat.alter]

theorem sub_alter (t : Layer ν α) (n : ν) (i : Inode α) :
    (t.alter [n] i).sub n = (t.sub n).alter [] i := by
  simp only [Layer.sub, Layer.alter, Layer.mk.injEq, and_true]
  funext p
  simp [Flat.alter]

/-- What is in a directory does not depend on its own entry. -/
theorem view_alter_nil (u : Layer ν α) (us : List (Layer ν α)) (i : Inode α) :
    view (u.alter [] i :: us) = (view (u :: us)).alter [] i := by
  funext q
  cases q with
  | nil => simp [Layer.alter, Flat.alter]
  | cons m r =>
    have h : (u.alter [] i).sub m = u.sub m := by
      simp [Layer.sub, Layer.alter, Flat.alter]
    rw [view_cons, children_cons, h, ← children_cons, ← view_cons]
    simp [Flat.alter]

/-- An inode changed in the top layer is changed in the view. -/
theorem view_alter_one {t : Layer ν α} {ls : List (Layer ν α)} (ht : t.Closed)
    (hls : ∀ l ∈ ls, l.Closed) {n : ν} {i j : Inode α} (hj : view (t :: ls) [n] = some j)
    (hij : i.isDir = j.isDir) : view (t.alter [n] i :: ls) = (view (t :: ls)).alter [n] i := by
  -- below `n` the view is altered at its top
  have key : view (children (t.alter [n] i :: ls) n) =
      (view (children (t :: ls) n)).alter [] i := by
    have hj' : view (children (t :: ls) n) [] = some j := hj
    rw [children_cons, sub_alter]
    rw [children_cons] at hj' ⊢
    set u := (t.sub n).alter [] i with hu
    have hentry : u.entry [] = some i := by simp [hu, Layer.alter, Flat.alter]
    have hd : u.entry.IsDirAt [] ↔ j.isDir = true := by simp [Flat.IsDirAt, hentry, hij]
    by_cases hw' : t.whiteout [n] = true
    · rw [merge_whiteout hw'] at hj'
      simp at hj'
    have hw : (t.sub n).whiteout [] = false := by simpa [Layer.sub] using hw'
    have hwu : u.whiteout [] = false := hw
    by_cases hdirt : (t.sub n).entry.IsDirAt []
    · rw [merge_dir hw hdirt] at hj' ⊢
      have hdirj : j.isDir = true := by
        rw [view_cons_nil] at hj'
        simpa [Flat.IsDirAt, hj'] using hdirt
      rw [merge_dir hwu (hd.mpr hdirj)]
      exact view_alter_nil _ _ i
    by_cases hnone : (t.sub n).entry [] = none
    · have hvoid : u = Layer.void.alter [] i := by rw [hu, ht.sub_absent hnone hw]
      rw [merge_absent hw hnone] at hj' ⊢
      -- what is below a new entry is what the layers below it show there, or nothing
      by_cases hdirj : j.isDir = true
      · have hdirs : (view (children ls n)).IsDirAt [] := by rwa [Flat.IsDirAt, hj']
        have hoff : u.closedOff [] = false := by rw [hvoid]; rfl
        rw [merge_dir hwu (hd.mpr hdirj), hoff, hvoid, children_eq_dirsBelow hdirs]
        refine (view_alter_nil _ _ i).trans ?_
        funext q
        cases q with
        | nil => simp [Flat.alter]
        | cons m r => simp [Flat.alter, view_void_cons]
      · have hfiles : ¬ (view (children ls n)).IsDirAt [] := by rwa [Flat.IsDirAt, hj']
        rw [merge_other hwu (fun h => hdirj (hd.mp h)) (by simp [hentry]), hvoid, view_alter_nil]
        funext q
        cases q with
        | nil => simp [Flat.alter]
        | cons m r =>
          have hclosed := view_closed (closed_children hls n) (rooted_children ls n)
          have hbelow := hclosed.none_append (p := []) (List.cons_ne_nil m r) hfiles
          rw [List.nil_append] at hbelow
          simp [Flat.alter, view_void_cons, hbelow]
    · rw [merge_other hw hdirt hnone] at hj' ⊢
      have hfilej : j.isDir ≠ true := by
        rw [view_cons_nil] at hj'
        simpa [Flat.IsDirAt, hj'] using hdirt
      rw [merge_other hwu (fun h => hfilej (hd.mp h)) (by simp [hentry])]
      exact view_alter_nil _ _ i
  funext q
  cases q with
  | nil => simp [Layer.alter, Flat.alter]
  | cons k r =>
    by_cases h : k = n
    · subst h
      rw [view_cons, key]
      simp [Flat.alter, view_cons]
    · have hsub : (t.alter [n] i).sub k = t.sub k := by
        simp [Layer.sub, Layer.alter, Flat.alter, h]
      rw [view_cons, children_cons, hsub, ← children_cons, ← view_cons]
      simp [Flat.alter, h]

/-- Putting an entry into the topmost layer, or a whiteout, with the directories above it, changes
the view there and nowhere else. -/
theorem view_graft {t : Layer ν α} {ls : List (Layer ν α)} (ht : t.Closed)
    (hr : t.entry.IsDirAt []) (hls : ∀ l ∈ ls, l.Closed) {dir : List ν}
    (hd : (view (t :: ls)).IsDirAt dir) (n : ν) (x : Option (Inode α)) :
    view ((t.copyUp (view (t :: ls)) dir).graft (dir ++ [n]) x :: ls) =
      (view (t :: ls)).set (dir ++ [n]) x := by
  rw [graft_append, set_append]
  exact view_editAt (keepsRoot_graft n x) ht hr hls hd fun u us _ _ _ _ => view_graft_one u us n x

/-- Changing an entry in the topmost layer, copied up when only the layers below have it, changes
that entry of the view and nothing else. -/
theorem view_alter {t : Layer ν α} {ls : List (Layer ν α)} (ht : t.Closed)
    (hr : t.entry.IsDirAt []) (hls : ∀ l ∈ ls, l.Closed) {dir : List ν}
    (hd : (view (t :: ls)).IsDirAt dir) {n : ν} {i j : Inode α}
    (hj : view (t :: ls) (dir ++ [n]) = some j) (hij : i.isDir = j.isDir) :
    view ((t.copyUp (view (t :: ls)) dir).alter (dir ++ [n]) i :: ls) =
      (view (t :: ls)).alter (dir ++ [n]) i := by
  rw [layerAlter_append, alter_append]
  refine view_editAt (keepsRoot_alter n i) ht hr hls hd fun u us hu _ hus h => ?_
  refine view_alter_one hu hus ?_ hij
  rw [h]
  exact hj

end Edit

end Overlay
