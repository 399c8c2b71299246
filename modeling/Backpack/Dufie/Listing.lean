import Backpack.Dufie.FileTreeTheorems
import Backpack.Forest
import Backpack.Shell.Commands

/-!
# Listings of a directory

What `du` prints for a directory is a listing of it: its paths are those of the directories below
it, in any order, and the directory itself comes last. The tree that `create_file_tree` makes of a
listing has a row for every directory, below the row of its parent.
-/

namespace Backpack.Dufie

open Shell

/-! ## Paths -/

/-- The path of `name` in the directory `a`. -/
def join (a name : Text) : Text := if a.getLast? = some '/' then a ++ name else a ++ '/' :: name

/-- `d` stands in `a`. -/
def IsSub (a d : Text) : Prop := ∃ name, name ≠ [] ∧ '/' ∉ name ∧ d = join a name

/-- A path in which the slash of `join` is the only one that is added: `/` itself or a path
without a final slash. -/
def Proper (a : Text) : Prop := a ≠ [] ∧ (a = ['/'] ∨ a.getLast? ≠ some '/')

/-- What stands before the slash in the paths of the directories in `a`. -/
def stem (a : Text) : Text := if a = ['/'] then [] else a

theorem join_eq_stem {a name : Text} (ha : Proper a) : join a name = stem a ++ '/' :: name := by
  rcases ha.2 with rfl | hlast
  · rfl
  · have hne : a ≠ ['/'] := by
      rintro rfl
      exact hlast rfl
    rw [join, if_neg hlast, stem, if_neg hne]

/-- Different directories have different stems. -/
theorem stem_injective {a b : Text} (ha : Proper a) (hb : Proper b) (h : stem a = stem b) :
    a = b := by
  unfold stem at h
  split_ifs at h with hroot hroot' hroot'
  · rw [hroot, hroot']
  · exact absurd h.symm hb.1
  · exact absurd h ha.1
  · exact h

theorem lastComponent_join {a name : Text} (hne : name ≠ []) (hname : '/' ∉ name) :
    lastComponent (join a name) = name := by
  unfold join
  split
  case isTrue hlast =>
    obtain ⟨pre, rfl⟩ : ∃ pre, a = pre ++ ['/'] := by
      rw [List.getLast?_eq_some_iff] at hlast
      exact hlast
    rw [List.append_assoc]
    exact lastComponent_append hname hne
  case isFalse => exact lastComponent_append hname hne

theorem slash_not_mem_lastComponent (d : Text) : '/' ∉ lastComponent d := by
  have hne := List.splitOn_ne_nil '/' (d.rdropWhile (· == '/'))
  rw [lastComponent, List.getLastD_eq_getLast?, List.getLast?_eq_some_getLast hne]
  exact not_mem_of_mem_splitOn (List.getLast_mem hne)

theorem isSub_iff {a d : Text} : IsSub a d ↔ lastComponent d ≠ [] ∧ d = join a (lastComponent d) := by
  constructor
  · rintro ⟨name, hne, hname, rfl⟩
    rw [lastComponent_join hne hname]
    exact ⟨hne, rfl⟩
  · rintro ⟨hne, heq⟩
    exact ⟨_, hne, slash_not_mem_lastComponent d, heq⟩

instance (a d : Text) : Decidable (IsSub a d) := decidable_of_iff _ isSub_iff.symm

theorem IsSub.eq_stem {a d : Text} (ha : Proper a) (h : IsSub a d) :
    d = stem a ++ '/' :: lastComponent d := by
  rw [← join_eq_stem ha]
  exact (isSub_iff.mp h).2

theorem IsSub.proper {a d : Text} (h : IsSub a d) : Proper d := by
  obtain ⟨name, hne, hname, rfl⟩ := h
  have hlast : (join a name).getLast? = some (name.getLast hne) := by
    unfold join
    split
    · rw [List.getLast?_append_of_ne_nil _ hne, List.getLast?_eq_some_getLast hne]
    · rw [List.getLast?_append_of_ne_nil _ (List.cons_ne_nil _ _),
        List.getLast?_cons_of_ne_nil hne, List.getLast?_eq_some_getLast hne]
  refine ⟨?_, Or.inr ?_⟩
  · intro hnil
    rw [hnil] at hlast
    simp at hlast
  · rw [hlast]
    intro heq
    exact hname (Option.some.inj heq ▸ List.getLast_mem hne)

/-- A directory stands in one other directory only. -/
theorem IsSub.unique {a b d : Text} (ha : Proper a) (hb : Proper b) (h : IsSub a d)
    (h' : IsSub b d) : a = b := by
  have heq := (h.eq_stem ha).symm.trans (h'.eq_stem hb)
  exact stem_injective ha hb (List.append_cancel_right heq)

/-- A directory is shorter than what it has in it. -/
theorem IsSub.length_lt {a d : Text} (h : IsSub a d) : a.length < d.length := by
  obtain ⟨name, hne, -, rfl⟩ := h
  have hpos := List.length_pos_iff.mpr hne
  unfold join
  split
  · simp only [List.length_append]
    omega
  · simp only [List.length_append, List.length_cons]
    omega

/-- The test of `create_file_tree` for the directories of a listing. -/
theorem found_iff_isSub {a b d : Text} (ha : Proper a) (hb : Proper b) (hd : IsSub b d) :
    Found a d ↔ IsSub a d := by
  have hdb := hd.eq_stem hb
  have hname := slash_not_mem_lastComponent d
  constructor
  · rintro ⟨t, rfl, ⟨u, rfl, hu⟩ | ⟨hone, ht⟩⟩
    · have hstem : a = stem b := by
        have hu' : lastComponent (a ++ '/' :: u) = u := by
          by_cases hnil : u = []
          · subst hnil
            have hlast := hd.proper.2
            have hnot : a ++ ['/'] ≠ ['/'] := by simpa using ha.1
            simp [hnot] at hlast
          · exact lastComponent_append hu hnil
        rw [hu'] at hdb
        exact List.append_cancel_right hdb
      have hbroot : b ≠ ['/'] := by
        rintro rfl
        exact ha.1 hstem
      rw [stem, if_neg hbroot] at hstem
      rw [hstem]
      rw [hstem] at hd
      exact hd
    · -- the slash of the directory is the one character of `a`
      obtain ⟨c, rfl⟩ := List.length_eq_one_iff.mp hone
      have hbroot : b = ['/'] := by
        by_contra hnot
        rw [stem, if_neg hnot] at hdb
        cases b with
        | nil => exact hb.1 rfl
        | cons x xs =>
          have htail : t = xs ++ '/' :: lastComponent ([c] ++ t) := (List.cons.inj hdb).2
          exact ht (by rw [htail]; simp)
      rw [hbroot] at hdb hd
      have hc : c = '/' := (List.cons.inj hdb).1
      rw [hc]
      rw [hc] at hd
      exact hd
  · intro h
    have hda := h.eq_stem ha
    by_cases hroot : a = ['/']
    · rw [hroot] at hda ⊢
      exact ⟨lastComponent d, hda, Or.inr ⟨rfl, hname⟩⟩
    · rw [stem, if_neg hroot] at hda
      exact ⟨_, hda, Or.inl ⟨_, rfl, hname⟩⟩

/-! ## Listings and the trees made of them -/

/-- The path `/`, or an absolute path without an empty component and without a slash at its end. -/
def RootPath (root : Text) : Prop :=
  root = ['/'] ∨ ∃ cs ≠ [], (∀ c ∈ cs, c ≠ [] ∧ '/' ∉ c) ∧ root = cs.flatMap ('/' :: ·)

/-- A listing of `root`: distinct paths, `root` the last of them, and with each other one the
directory that it stands in. -/
structure Listing (root : Text) (ds : List DirHelp) : Prop where
  distinct : (ds.map (·.dir)).Nodup
  last : ∃ s, ds.getLast? = some ⟨root, s⟩
  parents : ∀ d ∈ ds, d.dir ≠ root → ∃ a ∈ ds, IsSub a.dir d.dir

/-- The row of `d` where the rows of `owners` start at the number `base`: at the top for the
root, otherwise below the row of the directory that `d` stands in. -/
def RowFor (root : Text) (name : Text → Text) (base : ℕ) (owners : List DirHelp) (d : DirHelp)
    (row : Row) : Prop :=
  row.size = d.size ∧ row.label = label (if d.dir = root then root else name d.dir) d.size ∧
    if d.dir = root then row.parent = none
    else ∃ j a, owners[j]? = some a ∧ IsSub a.dir d.dir ∧ row.parent = some (base + j)

/-- The rows that were added are one for each directory, those of one parent in the order of the
list, and the iterator is that of the root. -/
def Shows (root : Text) (ds : List DirHelp) (name : Text → Text) (store : TreeStore)
    (r : TreeStore × Option ℕ) : Prop :=
  ∃ owners rows, r.1 = store ++ rows ∧ owners.Perm ds ∧
    List.Forall₂ (RowFor root name store.length owners) owners rows ∧
    (∀ a ∈ ds, (owners.filter fun d => IsSub a.dir d.dir) = ds.filter fun d => IsSub a.dir d.dir) ∧
    ∃ j d, owners[j]? = some d ∧ d.dir = root ∧ r.2 = some (store.length + j)

/-- What is shown of a path. The slash is shown as well below a root of one character that is
not `/`. -/
def shownName (root d : Text) : Text :=
  if root.length = 1 ∧ root ≠ ['/'] ∧ IsSub root d then '/' :: lastComponent d else lastComponent d

theorem RowFor.mono {root : Text} {name : Text → Text} {base : ℕ} {owners more : List DirHelp}
    {d : DirHelp} {row : Row} (h : RowFor root name base owners d row) :
    RowFor root name base (owners ++ more) d row := by
  refine ⟨h.1, h.2.1, ?_⟩
  have hparent := h.2.2
  split at hparent
  case isTrue hroot =>
    rw [if_pos hroot]
    exact hparent
  case isFalse hroot =>
    obtain ⟨j, a, hj, hsub, hp⟩ := hparent
    rw [if_neg hroot]
    refine ⟨j, a, ?_, hsub, hp⟩
    rw [List.getElem?_append_left (List.getElem?_eq_some_iff.mp hj).1, hj]

/-- The row of a directory is under that of its parent. -/
theorem RowFor.below {root : Text} {name : Text → Text} {base j : ℕ} {owners : List DirHelp}
    {a d : DirHelp} (hj : owners[j]? = some a) (hsub : IsSub a.dir d.dir) (hd : d.dir ≠ root) :
    RowFor root name base owners d ⟨some (base + j), d.size, label (name d.dir) d.size⟩ := by
  refine ⟨rfl, by rw [if_neg hd], ?_⟩
  rw [if_neg hd]
  exact ⟨j, a, hj, hsub, rfl⟩

/-- A row is appended for one more directory. -/
theorem rows_concat {root : Text} {name : Text → Text} {base : ℕ} {owners : List DirHelp}
    {rows : List Row} {d : DirHelp} {row : Row}
    (hrows : List.Forall₂ (RowFor root name base owners) owners rows)
    (hrow : RowFor root name base owners d row) :
    List.Forall₂ (RowFor root name base (owners ++ [d])) (owners ++ [d]) (rows ++ [row]) :=
  List.rel_append (hrows.imp fun _ _ h => h.mono)
    (List.Forall₂.cons hrow.mono List.Forall₂.nil)

namespace Listing

variable {root : Text} {ds : List DirHelp}

/-- `a` is the element for the directory that `d` stands in. -/
def IsParent (ds : List DirHelp) (a d : DirHelp) : Prop := a ∈ ds ∧ IsSub a.dir d.dir

instance (ds : List DirHelp) : DecidableRel (IsParent ds) :=
  fun _ _ => inferInstanceAs (Decidable (_ ∧ _))

theorem ne_root (h : Listing root ds) {d : DirHelp} (hd : d ∈ ds.dropLast) : d.dir ≠ root := by
  obtain ⟨s, hs⟩ := h.last
  obtain ⟨pre, rfl⟩ := List.getLast?_eq_some_iff.mp hs
  rw [List.dropLast_concat] at hd
  have hnodup := h.distinct
  rw [List.map_append, List.nodup_append] at hnodup
  exact hnodup.2.2 _ (List.mem_map_of_mem hd) _ (by simp)

theorem exists_parent (h : Listing root ds) {d : DirHelp} (hd : d ∈ ds.dropLast) :
    ∃ a, IsParent ds a d :=
  h.parents d (List.dropLast_subset ds hd) (h.ne_root hd)

theorem proper (h : Listing root ds) (hroot : Proper root) {d : DirHelp} (hd : d ∈ ds) :
    Proper d.dir := by
  by_cases heq : d.dir = root
  · rw [heq]
    exact hroot
  · obtain ⟨a, -, hsub⟩ := h.parents d hd heq
    exact hsub.proper

/-- The directories below the root are a forest. -/
theorem isForest (h : Listing root ds) (hroot : Proper root) :
    Forest.IsForest (IsParent ds) ds.dropLast (fun d => d.dir.length)
      (ds.map fun d => d.dir.length).sum where
  nodup := (List.Nodup.of_map _ h.distinct).sublist (List.dropLast_sublist ds)
  parent_unique := fun ha hb =>
    List.inj_on_of_nodup_map h.distinct ha.1 hb.1
      (ha.2.unique (h.proper hroot ha.1) (h.proper hroot hb.1) hb.2)
  depth_lt := fun ha => ha.2.length_lt
  depth_le := fun hd => List.single_le_sum (fun _ _ => Nat.zero_le _) _
    (List.mem_map_of_mem (f := fun d : DirHelp => d.dir.length) (List.dropLast_subset ds hd))

/-- What a call shows of a directory that it finds. -/
theorem shown (h : Listing root ds) (hroot : Proper root) {a d : DirHelp} (ha : a ∈ ds)
    (hsub : IsSub a.dir d.dir) :
    d.dir.drop ((if a.dir.length = 1 then 0 else a.dir.length) + 1) = shownName root d.dir := by
  have hproper := h.proper hroot ha
  have hd := hsub.eq_stem hproper
  have hother : ¬ (root.length = 1 ∧ root ≠ ['/']) ∨ a.dir ≠ root →
      shownName root d.dir = lastComponent d.dir := by
    intro hnot
    rw [shownName, if_neg]
    rintro ⟨hone, hslash, hrsub⟩
    rcases hnot with hnot | hne
    · exact hnot ⟨hone, hslash⟩
    · exact hne (hsub.unique hproper hroot hrsub)
  by_cases hslash : a.dir = ['/']
  · have hname := hother (by
      by_cases heq : a.dir = root
      · exact Or.inl fun h => h.2 (heq ▸ hslash)
      · exact Or.inr heq)
    rw [hname]
    conv_lhs => rw [hd, hslash]
    rfl
  · rw [stem, if_neg hslash] at hd
    by_cases hone : a.dir.length = 1
    · have heq : a.dir = root := by
        by_contra hne
        obtain ⟨b, hb, hbsub⟩ := h.parents a ha hne
        have hlt := hbsub.length_lt
        exact (h.proper hroot hb).1 (List.length_eq_zero_iff.mp (by omega))
      have hname : shownName root d.dir = '/' :: lastComponent d.dir := by
        rw [heq] at hone hslash hsub
        rw [shownName, if_pos ⟨hone, hslash, hsub⟩]
      rw [if_pos hone, hname]
      conv_lhs => rw [hd]
      rw [Nat.zero_add, List.drop_left' hone]
    · have hname := hother (by
        by_cases heq : a.dir = root
        · exact Or.inl fun h => hone (heq ▸ h.1)
        · exact Or.inr heq)
      rw [if_neg hone, hname]
      conv_lhs => rw [hd]
      rw [← List.drop_drop, List.drop_left, List.drop_one, List.tail_cons]

/-- The rows of a call: below `a` those of the walk. -/
theorem builds_walk (h : Listing root ds) (hroot : Proper root) (store : TreeStore) {n : ℕ}
    {a : DirHelp} (ha : a ∈ ds) (hn : (ds.map fun d => d.dir.length).sum ≤ a.dir.length + n)
    {sub : List DirHelp} (hsub : sub <:+ ds) {owners : List DirHelp} {rows : List Row}
    (hrows : List.Forall₂ (RowFor root (shownName root) store.length owners) owners rows)
    {j : ℕ} (hj : owners[j]? = some a) (child : Option ℕ) :
    let found := (sub.dropLast.filter (IsParent ds a ·)).flatMap fun k =>
      k :: Forest.walk (IsParent ds) ds.dropLast (n - 1) k
    ∃ more c, Builds ds a.dir (some (store.length + j)) sub (store ++ rows) child
        (store ++ rows ++ more, c) ∧
      List.Forall₂ (RowFor root (shownName root) store.length (owners ++ found)) (owners ++ found)
        (rows ++ more) := by
  induction n using Nat.strongRecOn generalizing a j sub owners rows child with
  | ind n ihn =>
    induction sub generalizing owners rows child with
    | nil =>
      refine ⟨[], child, ?_, ?_⟩
      · rw [List.append_nil]
        exact Builds.nil
      · simpa using hrows
    | cons e rest ih =>
      have hsuffix := (List.suffix_cons e rest).trans hsub
      by_cases hrest : rest = []
      · subst hrest
        refine ⟨[], child, ?_, ?_⟩
        · rw [List.append_nil]
          exact Builds.last
        · simpa using hrows
      have hmem := mem_dropLast_of_suffix hsub hrest
      have he := List.dropLast_subset ds hmem
      obtain ⟨b, hb⟩ := h.exists_parent hmem
      have hfound : Found a.dir e.dir ↔ IsParent ds a e :=
        (found_iff_isSub (h.proper hroot ha) (h.proper hroot hb.1) hb.2).trans
          ⟨fun hs => ⟨ha, hs⟩, fun hs => hs.2⟩
      rw [List.dropLast_cons_of_ne_nil hrest]
      by_cases hparent : IsParent ds a e
      · -- the row of `e`, then those of the call for `e`, then those of the rest of the list
        have hlt := hparent.2.length_lt
        have hle : e.dir.length ≤ (ds.map fun d => d.dir.length).sum :=
          (h.isForest hroot).depth_le hmem
        have hbound : (ds.map fun d => d.dir.length).sum ≤ e.dir.length + (n - 1) := by omega
        obtain ⟨row, hrow⟩ : ∃ row : Row,
            row = ⟨some (store.length + j), e.size, label (shownName root e.dir) e.size⟩ := ⟨_, rfl⟩
        have hrows1 := rows_concat hrows (hrow ▸ RowFor.below hj hparent.2 (h.ne_root hmem))
        have hpos : (owners ++ [e])[owners.length]? = some e := by simp
        obtain ⟨more1, c1, hbuilds1, hmore1⟩ :=
          ihn (n - 1) (by omega) he hbound List.suffix_rfl hrows1 hpos none
        have hwalk := (h.isForest hroot).walk_eq (n := n - 1) (a := e) hbound
        rw [Forest.kids] at hwalk
        rw [← hwalk] at hmore1
        have hj1 : ((owners ++ [e]) ++ Forest.walk (IsParent ds) ds.dropLast (n - 1) e)[j]? =
            some a := by
          rw [List.append_assoc, List.getElem?_append_left (List.getElem?_eq_some_iff.mp hj).1, hj]
        obtain ⟨more, c, hbuilds, hmore⟩ := ih hsuffix hmore1 hj1 (some (store ++ rows).length)
        refine ⟨row :: (more1 ++ more), c, ?_, ?_⟩
        · have hlen : (store ++ rows).length = store.length + owners.length := by
            rw [List.length_append, hrows.length_eq]
          rw [hlen] at hbuilds
          have hcall := @Builds.sub ds a.dir (store.length + j) e rest (store ++ rows) child
            (store ++ rows ++ row :: (more1 ++ more), c)
            (store ++ (rows ++ [row]) ++ more1, c1) _ hrest (turn_of_found (hfound.mpr hparent))
          rw [h.shown hroot ha hparent.2, ← hrow, hlen] at hcall
          refine hcall ?_ ?_
          · simpa using hbuilds1
          · simpa using hbuilds
        · rw [List.filter_cons_of_pos (by simpa using hparent), List.flatMap_cons]
          simpa using hmore
      · obtain ⟨more, c, hbuilds, hmore⟩ := ih hsuffix hrows hj child
        rw [List.filter_cons_of_neg (by simpa using hparent)]
        exact ⟨more, c, Builds.skip hrest (turn_of_not_found fun hf => hparent (hfound.mp hf))
          hbuilds, hmore⟩

theorem length_root_le (h : Listing root ds) {d : DirHelp} (hd : d ∈ ds) :
    root.length ≤ d.dir.length := by
  induction hk : d.dir.length using Nat.strongRecOn generalizing d with
  | ind k ih =>
    by_cases heq : d.dir = root
    · rw [← hk, heq]
    · obtain ⟨a, ha, hsub⟩ := h.parents d hd heq
      have hlt := hsub.length_lt
      have hle := ih a.dir.length (by omega) ha rfl
      omega

/-- A listing gives a tree with all its directories. -/
theorem exists_tree (h : Listing root ds) (hroot : Proper root) (store : TreeStore) :
    ∃ r, Builds ds root none ds store none r ∧ Shows root ds (shownName root) store r := by
  obtain ⟨s, hs⟩ := h.last
  obtain ⟨pre, hds⟩ := List.getLast?_eq_some_iff.mp hs
  have hpre : ds.dropLast = pre := by rw [hds, List.dropLast_concat]
  have hmem : ⟨root, s⟩ ∈ ds := by simp [hds]
  have hforest := h.isForest hroot
  have hbound : (ds.map fun d => d.dir.length).sum ≤
      root.length + (ds.map fun d => d.dir.length).sum := Nat.le_add_left _ _
  have hrow : RowFor root (shownName root) store.length [⟨root, s⟩] ⟨root, s⟩
      ⟨none, s, label root s⟩ := ⟨rfl, by rw [if_pos rfl], by rw [if_pos rfl]⟩
  obtain ⟨more, c, hbuilds, hmore⟩ := h.builds_walk hroot store hmem hbound List.suffix_rfl
    (List.Forall₂.cons hrow List.Forall₂.nil) (j := 0) rfl none
  have hwalk := hforest.walk_eq (a := ⟨root, s⟩) hbound
  rw [Forest.kids] at hwalk
  rw [← hwalk] at hmore
  have hparents : ∀ d ∈ ds.dropLast, ∃ b, IsParent ds b d ∧ (b = ⟨root, s⟩ ∨ b ∈ ds.dropLast) := by
    intro d hd
    obtain ⟨b, hb⟩ := h.exists_parent hd
    refine ⟨b, hb, ?_⟩
    have hbds := hb.1
    rw [hds] at hbds
    rw [hpre]
    simpa [or_comm] using hbds
  -- the rows are those of the root and of the walk below it
  obtain ⟨owners, howners⟩ : ∃ owners,
    owners = Forest.walk (IsParent ds) ds.dropLast (ds.map fun d => d.dir.length).sum ⟨root, s⟩ :=
    ⟨_, rfl⟩
  have hperm : owners.Perm ds.dropLast := howners ▸ hforest.walk_perm hbound hparents
  rw [← howners] at hmore
  refine ⟨(store ++ ⟨none, s, label root s⟩ :: more, some store.length), ?_, ⟨root, s⟩ :: owners,
    ⟨none, s, label root s⟩ :: more, rfl, ?_, hmore, ?_, 0, ⟨root, s⟩, rfl, rfl, rfl⟩
  · have hsearch := @builds_search ds root pre [] ⟨root, s⟩ store none _ rfl
      (fun d hd => h.ne_root (hpre ▸ hd)) hbuilds
    rw [← hds] at hsearch
    simpa using hsearch
  · rw [hpre] at hperm
    rw [hds]
    exact (hperm.cons _).trans (List.perm_append_singleton _ _).symm
  · intro a ha
    have hnot : ¬ IsSub a.dir root := fun hsub => by
      have hlt := hsub.length_lt
      have hle := h.length_root_le ha
      omega
    have ha' : a = ⟨root, s⟩ ∨ a ∈ owners := by
      rw [hperm.mem_iff, hpre]
      rw [hds] at ha
      simpa [or_comm] using ha
    have hfilter := hforest.filter_walk hbound (howners ▸ ha')
    rw [← howners, Forest.kids, hpre] at hfilter
    simp only [IsParent, ha, true_and] at hfilter
    rw [List.filter_cons_of_neg (by simpa using hnot), hfilter]
    conv_rhs => rw [hds, List.filter_append, List.filter_cons_of_neg (by simpa using hnot)]
    simp

end Listing

/-! ## The tree of a listing -/

theorem RootPath.proper {root : Text} (h : RootPath root) :
    Proper root ∧ (root.length = 1 → root = ['/']) := by
  rcases h with rfl | ⟨cs, hne, hcs, rfl⟩
  · exact ⟨⟨List.cons_ne_nil _ _, Or.inl rfl⟩, fun _ => rfl⟩
  · obtain ⟨init, c, hcat⟩ := (List.eq_nil_or_concat cs).resolve_left hne
    rw [List.concat_eq_append] at hcat
    subst hcat
    have hc := hcs c (by simp)
    have hlast : ((init ++ [c]).flatMap ('/' :: ·)).getLast? = some (c.getLast hc.1) := by
      rw [List.flatMap_append, List.flatMap_singleton,
        List.getLast?_append_of_ne_nil _ (List.cons_ne_nil _ _),
        List.getLast?_cons_of_ne_nil hc.1, List.getLast?_eq_some_getLast hc.1]
    have hpos := List.length_pos_iff.mpr hc.1
    refine ⟨⟨by simp, Or.inr ?_⟩, fun hone => ?_⟩
    · rw [hlast]
      intro heq
      exact hc.2 (Option.some.inj heq ▸ List.getLast_mem hc.1)
    · rw [List.flatMap_append, List.flatMap_singleton, List.length_append,
        List.length_cons] at hone
      omega

theorem RootPath.shownName {root : Text} (h : RootPath root) : shownName root = lastComponent := by
  funext d
  rw [Dufie.shownName, if_neg fun hnot => hnot.2.1 (h.proper.2 hnot.1)]

/-- The sizes of the new rows are those of the directories. -/
theorem Shows.fits_iff {root : Text} {ds : List DirHelp} {name : Text → Text} {store : TreeStore}
    {r : TreeStore × Option ℕ} (h : Shows root ds name store r) :
    (∀ row ∈ r.1.drop store.length, Fits row.size) ↔ ∀ d ∈ ds, Fits d.size := by
  obtain ⟨owners, rows, hr, hperm, hrows, -⟩ := h
  have hsizes : owners.map (·.size) = rows.map (·.size) := by
    rw [← List.forall₂_eq_eq_eq, List.forall₂_map_left_iff, List.forall₂_map_right_iff]
    exact hrows.imp fun _ _ hrow => hrow.1.symm
  rw [hr, List.drop_left]
  have hforall : ∀ {α : Type} (l : List α) (f : α → ℤ),
      (∀ x ∈ l, Fits (f x)) ↔ ∀ s ∈ l.map f, Fits s := by simp
  rw [hforall rows, hforall ds, ← hsizes]
  exact forall_congr' fun s => by rw [(hperm.map _).mem_iff]

theorem Shows.fileTree_iff {root : Text} {ds : List DirHelp} {name : Text → Text}
    {store : TreeStore} {r : TreeStore × Option ℕ} {fuel : ℕ} (h : Shows root ds name store r) :
    fileTree fuel ds root store = some r ↔
      createFileTree fuel ds root store = some r ∧ ∀ d ∈ ds, Fits d.size := by
  rw [← h.fits_iff, fileTree, Option.bind_eq_bind, Option.bind_eq_some_iff]
  constructor
  · rintro ⟨r', hr', hif⟩
    split_ifs at hif with hfits
    obtain rfl := Option.some.inj hif
    exact ⟨hr', hfits⟩
  · rintro ⟨hr, hfits⟩
    exact ⟨r, hr, if_pos hfits⟩

/-- `create_file_tree` leaves the tree of a listing exactly if the text of each size is short
enough. -/
theorem fileTree_shows_iff {root : Text} {ds : List DirHelp} (hroot : RootPath root)
    (hlist : Listing root ds) (store : TreeStore) :
    (∃ fuel r, fileTree fuel (addAll ds) root store = some r ∧
      Shows root ds lastComponent store r) ↔ ∀ d ∈ ds, Fits d.size := by
  rw [addAll_eq]
  constructor
  · rintro ⟨fuel, r, hr, hshows⟩
    exact (hshows.fileTree_iff.mp hr).2
  · intro hfits
    obtain ⟨r, ⟨fuel, hfuel⟩, hshows⟩ := hlist.exists_tree hroot.proper.1 store
    rw [hroot.shownName] at hshows
    exact ⟨fuel, r, hshows.fileTree_iff.mpr ⟨hfuel, hfits⟩, hshows⟩

/-- The listing of a directory with one directory in it. -/
theorem listing_of_two (root : Text) {name : Text} (s t : ℤ) (hne : name ≠ [])
    (hname : '/' ∉ name) : Listing root [⟨join root name, s⟩, ⟨root, t⟩] where
  distinct := by
    have hsub : IsSub root (join root name) := ⟨name, hne, hname, rfl⟩
    have hlt := hsub.length_lt
    have hdiff : join root name ≠ root := fun heq => by
      rw [heq] at hlt
      exact Nat.lt_irrefl _ hlt
    simp [hdiff]
  last := ⟨t, rfl⟩
  parents := by
    intro d hd hdir
    have heq : d = ⟨join root name, s⟩ := by
      rcases List.mem_cons.mp hd with rfl | hd
      · rfl
      · rw [List.mem_singleton.mp hd] at hdir
        exact absurd rfl hdir
    exact ⟨⟨root, t⟩, by simp, name, hne, hname, by rw [heq]⟩

theorem fileTree_shows_two :
    ∃ fuel r, fileTree fuel (addAll [⟨"/home".toList, 1500⟩, ⟨['/'], 2500⟩]) ['/'] [] = some r ∧
      Shows ['/'] [⟨"/home".toList, 1500⟩, ⟨['/'], 2500⟩] lastComponent [] r :=
  (fileTree_shows_iff (Or.inl rfl)
    (@listing_of_two ['/'] "home".toList 1500 2500 (by decide) (by decide)) []).mpr
    (by decide)

/-- The text of an exabyte has fourteen characters. -/
theorem not_fileTree_shows :
    ¬ ∀ (root : Text) (ds : List DirHelp) (store : TreeStore), RootPath root → Listing root ds →
      ∃ fuel r, fileTree fuel (addAll ds) root store = some r ∧
        Shows root ds lastComponent store r := by
  intro hall
  obtain ⟨_, r, hr, hshows⟩ := hall ['/'] [⟨['/', 'a'], 0⟩, ⟨['/'], 2 ^ 60⟩] [] (Or.inl rfl)
    (@listing_of_two ['/'] ['a'] 0 (2 ^ 60) (by decide) (by decide))
  rw [addAll_eq] at hr
  have hfit := (hshows.fileTree_iff.mp hr).2 ⟨['/'], 2 ^ 60⟩ (by simp)
  exact absurd hfit (by decide)

end Backpack.Dufie
