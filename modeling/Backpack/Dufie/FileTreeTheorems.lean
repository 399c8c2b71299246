import Backpack.Dufie.FileTree

/-!
# When the tree is finished

`Builds` is a run of the loop that comes to its end, without the number of steps. The rules for it
are the branches of the loop. The calls below a path end because every directory is longer than
the one that it is found in, with one exception: a path of one character is found in itself.
-/

namespace Backpack.Dufie

open Shell

/-! ## Steps -/

section Common

variable {path dir : Text}

/-- The test in `create_file_tree` that the path starts the directory. -/
theorem common_eq_length_iff : common path dir = path.length ↔ path <+: dir := by
  induction path generalizing dir with
  | nil => simp [common]
  | cons p ps ih =>
    cases dir with
    | nil => simp [common]
    | cons d ds =>
      rw [common, List.cons_prefix_cons, ← ih]
      split
      case isTrue h => simp [h]
      case isFalse h => simp [Ne.symm h]

end Common

/-! What one element of the list is taken for. -/

section Turn

variable {path dir name : Text} {p : ℕ}

/-- A directory that does not begin with the path is passed over. -/
theorem turn_of_unrelated {parent : Option ℕ} (h : ¬ path <+: dir) :
    turn path parent dir = .skip := by
  have hne : common path dir ≠ path.length := fun heq => h (common_eq_length_iff.mp heq)
  simp [turn, hne]

theorem turn_none_append (t : Text) :
    turn path none (path ++ t) = if t = [] then .root else .skip := by
  have hcommon : common path (path ++ t) = path.length :=
    common_eq_length_iff.mpr (List.prefix_append _ _)
  simp [turn, hcommon]

theorem turn_some_append (t : Text) :
    turn path (some p) (path ++ t) =
      if (t.head? = some '/' ∧ '/' ∉ t.drop 1) ∨ (path.length = 1 ∧ '/' ∉ t) then
        .child ((path ++ t).drop ((if path.length = 1 then 0 else path.length) + 1))
      else .skip := by
  have hcommon : common path (path ++ t) = path.length :=
    common_eq_length_iff.mpr (List.prefix_append _ _)
  have hhead : (path ++ t)[path.length]? = t.head? := by
    rw [List.getElem?_append_right (Nat.le_refl _), Nat.sub_self, List.head?_eq_getElem?]
  have hdrop : (path ++ t).drop (path.length + 1) = t.drop 1 := by simp [List.drop_append]
  have hone : (path.length = 1 ∧ '/' ∉ (path ++ t).drop 1) ↔ path.length = 1 ∧ '/' ∉ t :=
    and_congr_right fun h => by rw [List.drop_left' h]
  unfold turn
  simp only [hcommon, ne_eq, not_true_eq_false, if_false, reduceCtorEq, hhead, hdrop, hone]

theorem turn_none_eq_root_iff : turn path none dir = .root ↔ dir = path := by
  by_cases hpre : path <+: dir
  · obtain ⟨t, rfl⟩ := hpre
    simp [turn_none_append]
  · rw [turn_of_unrelated hpre]
    simpa using fun h : dir = path => hpre (h ▸ List.prefix_rfl)

theorem turn_none_eq_skip (h : dir ≠ path) : turn path none dir = .skip := by
  by_cases hpre : path <+: dir
  · obtain ⟨t, rfl⟩ := hpre
    rw [turn_none_append, if_neg (by simpa using h)]
  · exact turn_of_unrelated hpre

/-- The directories that a call with a parent takes for children of `path`. -/
def Found (path dir : Text) : Prop :=
  ∃ t, dir = path ++ t ∧ ((∃ u, t = '/' :: u ∧ '/' ∉ u) ∨ path.length = 1 ∧ '/' ∉ t)

theorem found_append {t : Text} : Found path (path ++ t) ↔
    (t.head? = some '/' ∧ '/' ∉ t.drop 1) ∨ (path.length = 1 ∧ '/' ∉ t) := by
  have hhead : (∃ u, t = '/' :: u ∧ '/' ∉ u) ↔ t.head? = some '/' ∧ '/' ∉ t.drop 1 := by
    cases t with
    | nil => simp
    | cons c u => aesop
  rw [← hhead]
  exact ⟨fun ⟨s, heq, hs⟩ => List.append_cancel_left heq ▸ hs, fun h => ⟨t, rfl, h⟩⟩

/-- A directory found below the path becomes a row. -/
theorem turn_of_found (h : Found path dir) :
    turn path (some p) dir =
      .child (dir.drop ((if path.length = 1 then 0 else path.length) + 1)) := by
  obtain ⟨t, rfl, -⟩ := id h
  rw [turn_some_append, if_pos (found_append.mp h)]

/-- Another one does not. -/
theorem turn_of_not_found (h : ¬ Found path dir) : turn path (some p) dir = .skip := by
  by_cases hpre : path <+: dir
  · obtain ⟨t, rfl⟩ := hpre
    rw [turn_some_append, if_neg fun ht => h (found_append.mpr ht)]
  · exact turn_of_unrelated hpre

end Turn

/-- A run of the loop that ends. -/
def Builds (dir : List DirHelp) (path : Text) (parent : Option ℕ) (sub : List DirHelp)
    (store : TreeStore) (child : Option ℕ) (r : TreeStore × Option ℕ) : Prop :=
  ∃ fuel, treeLoop dir fuel path parent sub store child = some r

variable {dir : List DirHelp} {path : Text}

/-- More steps change nothing. -/
theorem treeLoop_mono {n m : ℕ} {parent : Option ℕ} {sub : List DirHelp} {store : TreeStore}
    {child : Option ℕ} {r : TreeStore × Option ℕ} (hnm : n ≤ m)
    (h : treeLoop dir n path parent sub store child = some r) :
    treeLoop dir m path parent sub store child = some r := by
  induction n generalizing m path parent sub store child r with
  | zero => simp [treeLoop] at h
  | succ n ih =>
    obtain ⟨m, rfl⟩ := Nat.exists_eq_add_of_le hnm
    have hle : n ≤ n + m := Nat.le_add_right n m
    rw [Nat.add_right_comm]
    cases sub with
    | nil =>
      rw [treeLoop] at h ⊢
      exact h
    | cons e rest =>
      rw [treeLoop] at h ⊢
      by_cases hlast : rest = [] ∧ parent ≠ none
      · rw [if_pos hlast] at h ⊢
        exact h
      · rw [if_neg hlast] at h ⊢
        cases hturn : turn path parent e.dir with
        | skip =>
          simp only [hturn] at h ⊢
          exact ih hle h
        | root =>
          simp only [hturn, Option.map_eq_some_iff] at h ⊢
          obtain ⟨a, ha, hr⟩ := h
          exact ⟨a, ih hle ha, hr⟩
        | child name =>
          simp only [hturn, Option.bind_eq_some_iff] at h ⊢
          obtain ⟨a, ha, hr⟩ := h
          exact ⟨a, ih hle ha, ih hle hr⟩

namespace Builds

variable {parent : Option ℕ} {p : ℕ} {e : DirHelp} {rest : List DirHelp} {store : TreeStore}
  {child : Option ℕ} {r s : TreeStore × Option ℕ}

theorem nil : Builds dir path parent [] store child (store, child) := ⟨1, rfl⟩

/-- A call with a parent leaves out the last element. -/
theorem last : Builds dir path (some p) [e] store child (store, child) := by
  refine ⟨1, ?_⟩
  rw [treeLoop, if_pos ⟨rfl, by simp⟩]

theorem skip (hrest : rest ≠ []) (hturn : turn path parent e.dir = .skip)
    (h : Builds dir path parent rest store child r) :
    Builds dir path parent (e :: rest) store child r := by
  obtain ⟨n, hn⟩ := h
  refine ⟨n + 1, ?_⟩
  rw [treeLoop, if_neg fun hlast => hrest hlast.1]
  simp only [hturn, if_neg hrest]
  exact hn

theorem root (hturn : turn path none e.dir = .root)
    (h : Builds dir e.dir (some store.length) dir
      (store ++ [⟨none, e.size, label e.dir e.size⟩]) none r) :
    Builds dir path none (e :: rest) store child (r.1, some store.length) := by
  obtain ⟨n, hn⟩ := h
  refine ⟨n + 1, ?_⟩
  rw [treeLoop, if_neg fun hlast => hlast.2 rfl]
  simp only [hturn, hn, Option.map_some]

theorem sub {name : Text} (hrest : rest ≠ []) (hturn : turn path (some p) e.dir = .child name)
    (hsub : Builds dir e.dir (some store.length) dir
      (store ++ [⟨some p, e.size, label name e.size⟩]) none s)
    (h : Builds dir path (some p) rest s.1 (some store.length) r) :
    Builds dir path (some p) (e :: rest) store child r := by
  obtain ⟨n, hn⟩ := hsub
  obtain ⟨m, hm⟩ := h
  refine ⟨max n m + 1, ?_⟩
  rw [treeLoop, if_neg fun hlast => hrest hlast.1]
  simp only [hturn, if_neg hrest]
  rw [treeLoop_mono (Nat.le_max_left n m) hn, Option.bind_some]
  exact treeLoop_mono (Nat.le_max_right n m) hm

end Builds

/-! ## Termination -/

theorem addAll_eq (ds : List DirHelp) : addAll ds = ds := by
  suffices h : ∀ main : List DirHelp, ds.foldl (fun l x => add l x.dir x.size) main = main ++ ds by
    exact (h []).trans (List.nil_append ds)
  induction ds with
  | nil => exact fun main => (List.append_nil main).symm
  | cons d ds ih =>
    intro main
    rw [List.foldl_cons, ih, add, List.append_assoc]
    rfl

/-- A path of one character that is in the list before its end is found in itself. The empty
path is one step away from the path `/`. -/
def Circular (dir : List DirHelp) (path : Text) : Prop :=
  ∃ e ∈ dir.dropLast, e.dir.length = 1 ∧ (e.dir = path ∨ path = [] ∧ e.dir = ['/'])

theorem Found.length_lt {d : Text} (h : Found path d) (hne : d ≠ path) :
    path.length < d.length := by
  obtain ⟨t, rfl, -⟩ := h
  have hpos : 0 < t.length := List.length_pos_iff.mpr (by simpa using hne)
  simp only [List.length_append]
  omega

theorem found_self : Found path path ↔ path.length = 1 := by
  have h := @found_append path []
  simpa using h

/-- A directory of one character is found in itself and in the empty path only. -/
theorem Found.length_one {d : Text} (h : Found path d) (hd : d.length = 1) :
    d = path ∨ path = [] ∧ d = ['/'] := by
  obtain ⟨t, rfl, ht⟩ := h
  cases path with
  | nil =>
    rcases ht with ⟨u, rfl, -⟩ | ⟨hlen, -⟩
    · simp at hd
      simp [hd]
    · simp at hlen
  | cons c cs =>
    have ht : t.length = 0 := by
      simp only [List.length_append, List.length_cons] at hd
      omega
    rw [List.length_eq_zero_iff.mp ht, List.append_nil]
    exact Or.inl rfl

theorem mem_dropLast_of_suffix {α : Type} {e : α} {rest l : List α} (h : e :: rest <:+ l)
    (hrest : rest ≠ []) : e ∈ l.dropLast := by
  obtain ⟨pre, rfl⟩ := h
  rw [List.dropLast_append_of_ne_nil (by simp), List.dropLast_cons_of_ne_nil hrest]
  simp

/-- What is found on the way is not circular either, and is longer. -/
theorem not_circular_of_found {e : DirHelp} (h : ¬ Circular dir path) (he : e ∈ dir.dropLast)
    (hfound : Found path e.dir) : ¬ Circular dir e.dir ∧ path.length < e.dir.length := by
  have hlen : e.dir.length ≠ 1 := fun hone => h ⟨e, he, hone, hfound.length_one hone⟩
  have hne : e.dir ≠ path := by
    intro heq
    have hself : Found path path := heq ▸ hfound
    exact hlen (by rw [heq]; exact found_self.mp hself)
  have hlt := hfound.length_lt hne
  refine ⟨?_, hlt⟩
  rintro ⟨d, hd, hone, hdir | ⟨hnil, -⟩⟩
  · exact hlen (by rw [← hdir]; exact hone)
  · rw [hnil] at hlt
    simp at hlt

/-- Without a circle, each call goes to longer paths, so the recursion ends. -/
theorem builds_of_not_circular {n : ℕ} (hbound : ∀ e ∈ dir, e.dir.length < path.length + n)
    (h : ¬ Circular dir path) (p : ℕ) {sub : List DirHelp} (hsub : sub <:+ dir)
    (store : TreeStore) (child : Option ℕ) : ∃ r, Builds dir path (some p) sub store child r := by
  -- the paths of the calls grow, up to the length of the longest directory
  induction n using Nat.strongRecOn generalizing path p sub store child with
  | ind n ihn =>
    induction sub generalizing store child with
    | nil => exact ⟨_, Builds.nil⟩
    | cons e rest ih =>
      have hsuffix := (List.suffix_cons e rest).trans hsub
      by_cases hrest : rest = []
      · subst hrest
        exact ⟨_, Builds.last⟩
      by_cases hfound : Found path e.dir
      · obtain ⟨hnot, hlt⟩ := not_circular_of_found h (mem_dropLast_of_suffix hsub hrest) hfound
        have hle := hbound e (hsub.subset List.mem_cons_self)
        have hlonger : ∀ d ∈ dir, d.dir.length < e.dir.length + (n - 1) := fun d hd => by
          have hle := hbound d hd
          omega
        obtain ⟨s, hs⟩ :=
          ihn (n - 1) (by omega) hlonger hnot store.length List.suffix_rfl _ none
        obtain ⟨r, hr⟩ := ih hsuffix s.1 (some store.length)
        exact ⟨r, Builds.sub hrest (turn_of_found hfound) hs hr⟩
      · obtain ⟨r, hr⟩ := ih hsuffix store child
        exact ⟨r, Builds.skip hrest (turn_of_not_found hfound) hr⟩

/-- A loop that meets a directory whose call does not end does not end. -/
theorem treeLoop_eq_none_of_found {n p : ℕ} {sub : List DirHelp} {e : DirHelp}
    (he : e ∈ sub.dropLast) (hfound : Found path e.dir)
    (h : ∀ m < n, ∀ q store, treeLoop dir m e.dir (some q) dir store none = none)
    (store : TreeStore) (child : Option ℕ) :
    treeLoop dir n path (some p) sub store child = none := by
  induction n generalizing sub store child with
  | zero => rfl
  | succ n ih =>
    cases sub with
    | nil => simp at he
    | cons d rest =>
      have hrest : rest ≠ [] := by
        rintro rfl
        simp at he
      rw [List.dropLast_cons_of_ne_nil hrest] at he
      have hless : ∀ m < n, ∀ q store, treeLoop dir m e.dir (some q) dir store none = none :=
        fun m hm => h m (by omega)
      rw [treeLoop, if_neg fun hlast => hrest hlast.1]
      by_cases hd : Found path d.dir
      · simp only [turn_of_found hd, if_neg hrest]
        rcases List.mem_cons.mp he with rfl | he
        · rw [h n (by omega), Option.bind_none]
        · rw [Option.bind_eq_none_iff]
          intro r _
          exact ih he hless r.1 _
      · simp only [turn_of_not_found hd, if_neg hrest]
        rcases List.mem_cons.mp he with rfl | he
        · exact absurd hfound hd
        · exact ih he hless store child

/-- In a circle no number of calls is enough. -/
theorem treeLoop_eq_none_of_circular (h : Circular dir path) (n p : ℕ) (store : TreeStore)
    (child : Option ℕ) : treeLoop dir n path (some p) dir store child = none := by
  have hself : ∀ e ∈ dir.dropLast, e.dir.length = 1 → ∀ n p store child,
      treeLoop dir n e.dir (some p) dir store child = none := by
    intro e he hone n
    induction n using Nat.strongRecOn with
    | ind n ih =>
      intro p store child
      exact treeLoop_eq_none_of_found he (found_self.mpr hone)
        (fun m hm q store => ih m hm q store none) store child
  obtain ⟨e, he, hone, rfl | ⟨rfl, hslash⟩⟩ := h
  · exact hself e he hone n p store child
  · have hfound : Found [] e.dir := ⟨['/'], hslash, Or.inl ⟨[], rfl, List.not_mem_nil⟩⟩
    exact treeLoop_eq_none_of_found he hfound
      (fun m _ q store => hself e he hone m q store none) store child

/-- The search for the path stays at the last element, unless the path is found and the call for
it ends. -/
theorem treeLoop_none_eq_none {sub : List DirHelp} (hne : sub ≠ [])
    (h : ∀ e ∈ sub, e.dir = path →
      ∀ m q store, treeLoop dir m path (some q) dir store none = none)
    (n : ℕ) (store : TreeStore) (child : Option ℕ) :
    treeLoop dir n path none sub store child = none := by
  induction n generalizing sub with
  | zero => rfl
  | succ n ih =>
    cases sub with
    | nil => exact absurd rfl hne
    | cons e rest =>
      rw [treeLoop, if_neg fun hlast => hlast.2 rfl]
      by_cases heq : e.dir = path
      · simp only [turn_none_eq_root_iff.mpr heq]
        rw [heq, h e List.mem_cons_self heq, Option.map_none]
      · simp only [turn_none_eq_skip heq]
        by_cases hrest : rest = []
        · subst hrest
          rw [if_pos rfl]
          exact ih hne h
        · rw [if_neg hrest]
          exact ih hrest fun d hd => h d (List.mem_cons_of_mem _ hd)

/-- The search for the path comes to the first element that is the path. -/
theorem builds_search {pre post : List DirHelp} {e : DirHelp} {store : TreeStore}
    {child : Option ℕ} {r : TreeStore × Option ℕ} (hpath : e.dir = path)
    (hpre : ∀ d ∈ pre, d.dir ≠ path)
    (h : Builds dir path (some store.length) dir
      (store ++ [⟨none, e.size, label path e.size⟩]) none r) :
    Builds dir path none (pre ++ e :: post) store child (r.1, some store.length) := by
  induction pre with
  | nil =>
    rw [← hpath] at h
    exact Builds.root (turn_none_eq_root_iff.mpr hpath) h
  | cons d pre ih =>
    exact Builds.skip (by simp) (turn_none_eq_skip (hpre d List.mem_cons_self))
      (ih fun c hc => hpre c (List.mem_cons_of_mem _ hc))

/-- The root is the first entry with the path. -/
theorem exists_first {ds : List DirHelp} (h : ∃ e ∈ ds, e.dir = path) :
    ∃ pre e post, ds = pre ++ e :: post ∧ e.dir = path ∧ ∀ d ∈ pre, d.dir ≠ path := by
  have hsome : (ds.find? fun e => e.dir = path).isSome := by simpa using h
  obtain ⟨e, he⟩ := Option.isSome_iff_exists.mp hsome
  obtain ⟨hpath, pre, post, hsplit, hpre⟩ := List.find?_eq_some_iff_append.mp he
  exact ⟨pre, e, post, hsplit, by simpa using hpath, fun d hd => by simpa using hpre d hd⟩

/-- `create_file_tree` ends if the list is empty, or if the path is in the list and is not found
in itself. Otherwise it does not end. -/
theorem createFileTree_ends_iff (ds : List DirHelp) (path : Text) (store : TreeStore) :
    (∃ fuel, (createFileTree fuel (addAll ds) path store).isSome) ↔
      ds = [] ∨ (∃ e ∈ ds, e.dir = path) ∧ ¬ Circular ds path := by
  rw [addAll_eq]
  constructor
  · rintro ⟨fuel, hends⟩
    by_contra hnot
    obtain ⟨hne, himp⟩ := not_or.mp hnot
    have hstays := @treeLoop_none_eq_none ds path ds hne
      (fun e he heq m q s => treeLoop_eq_none_of_circular
        (not_not.mp fun hc => himp ⟨⟨e, he, heq⟩, hc⟩) m q s none) fuel store none
    rw [createFileTree, hstays] at hends
    simp at hends
  · rintro (rfl | ⟨hpath, hcirc⟩)
    · exact ⟨1, rfl⟩
    · obtain ⟨n, hn⟩ : ∃ n, ∀ d ∈ ds, d.dir.length < path.length + n := by
        refine ⟨(ds.map fun d => d.dir.length).sum + 1, fun d hd => ?_⟩
        have hle := List.single_le_sum (fun x _ => Nat.zero_le x) _
          (List.mem_map_of_mem (f := fun d : DirHelp => d.dir.length) hd)
        omega
      obtain ⟨pre, e, post, hsplit, heq, hpre⟩ := exists_first hpath
      obtain ⟨r, hr⟩ := builds_of_not_circular hn hcirc store.length List.suffix_rfl
        (store ++ [⟨none, e.size, label path e.size⟩]) none
      obtain ⟨fuel, hfuel⟩ := @builds_search ds path pre post e store none r heq hpre hr
      rw [← hsplit] at hfuel
      exact ⟨fuel, by rw [createFileTree, hfuel]; rfl⟩

/-- The loop does not leave the last element when the path is not in the list. -/
theorem not_createFileTree_ends :
    ¬ ∀ (ds : List DirHelp) (path : Text) (store : TreeStore),
      ∃ fuel, (createFileTree fuel (addAll ds) path store).isSome := by
  intro hall
  have hstays : ∀ fuel, createFileTree fuel [⟨['/', 'b'], 4⟩] ['/', 'a'] [] = none :=
    fun fuel => treeLoop_none_eq_none (List.cons_ne_nil _ _)
      (fun e he heq => by
        rcases List.mem_singleton.mp he with rfl
        exact absurd heq (by decide)) fuel [] none
  obtain ⟨fuel, hends⟩ := hall [⟨['/', 'b'], 4⟩] ['/', 'a'] []
  rw [addAll_eq, hstays fuel] at hends
  exact absurd hends (by decide)

end Backpack.Dufie
