import Backpack.Shell.Commands

/-!
# Trees of files

The files and directories under the working directory, each known by the names on the way to it.
Over it are the commands that rename: a path name is followed through the tree, an unquoted word
becomes the path names that it matches, and `mv` moves to a name or into a directory. NamePath names
are relative, and one that leads out of the working directory leads nowhere.
-/

namespace Shell

/-- The names on the way from the working directory down. -/
abbrev NamePath := List Text

inductive Node (α : Type) where
  | file (contents : α)
  | dir
deriving DecidableEq

def Node.isDir {α : Type} : Node α → Bool
  | .file _ => false
  | .dir => true

abbrev NodeTree (α : Type) := List (NamePath × Node α)

/-- A path as it is written. -/
def render (p : NamePath) : Text := ['/'].intercalate p

/-- The names `.` and `..`, and the empty one between two slashes. -/
def IsSpecial (c : Text) : Prop := c = [] ∨ c = ['.'] ∨ c = ['.', '.']

instance (c : Text) : Decidable (IsSpecial c) := inferInstanceAs (Decidable (_ ∨ _))

/-- A name that a file can have. -/
def IsName (c : Text) : Prop := ¬ IsSpecial c ∧ '/' ∉ c

instance (c : Text) : Decidable (IsName c) := inferInstanceAs (Decidable (_ ∧ _))

namespace NodeTree

variable {α : Type}

def node : NodeTree α → NamePath → Option (Node α)
  | [], _ => none
  | e :: t, p => if e.1 = p then some e.2 else node t p

/-- The working directory is one. -/
def isDir (t : NodeTree α) (p : NamePath) : Bool := p.isEmpty || (t.node p).any Node.isDir

/-! ## NamePath names -/

/-- Follows names from the directory `here` on. The last one need not be there. -/
def walk (t : NodeTree α) : NamePath → List Text → Option NamePath
  | here, [] => some here
  | here, c :: cs =>
    if t.isDir here then
      if c = [] ∨ c = ['.'] then walk t here cs
      else if c = ['.', '.'] then if here = [] then none else walk t here.dropLast cs
      else walk t (here ++ [c]) cs
    else none

def resolve (t : NodeTree α) (w : Text) : Option NamePath := t.walk [] (w.splitOn '/')

/-- `-d w` -/
def isFolder (t : NodeTree α) (w : Text) : Bool := (t.resolve w).any t.isDir

/-! ## Pathname expansion -/

/-- The word has a `*`, a `?` or a bracket expression that is not quoted. `opened` holds behind
a `[`. -/
def hasPattern : Bool → Text → Bool
  | _, [] => false
  | _, ['\\'] => false
  | opened, '\\' :: _ :: cs => hasPattern opened cs
  | opened, c :: cs =>
    c == '*' || c == '?' || (opened && c == ']') || hasPattern (opened || c == '[') cs

/-- The names in a directory. -/
def names (t : NodeTree α) (d : NamePath) : List Text :=
  (t.filter fun e => e.1 ≠ [] ∧ e.1.dropLast = d).filterMap fun e => e.1.getLast?

/-- The path names that go on from `here` with names that the patterns match. -/
def expandFrom (t : NodeTree α) : List Text → List Text → List (List Text)
  | here, [] => [here]
  | here, c :: cs =>
    match t.walk [] here with
    | none => []
    | some d =>
      if t.isDir d then
        if IsSpecial c then expandFrom t (here ++ [c]) cs
        else ((t.names d).filter (pathMatch c)).flatMap fun name => expandFrom t (here ++ [name]) cs
      else []

/-- What becomes of an unquoted word. A pattern that matches nothing stays. -/
def pathnames (t : NodeTree α) (w : Text) : List Text :=
  if hasPattern false w then
    match t.expandFrom [] (w.splitOn '/') with
    | [] => [w]
    | ws => lsSort (ws.map render)
  else [w]

/-! ## `find` -/

/-- `find top -name pat`, without the order in which the directories are read. -/
def findName (t : NodeTree α) (top pat : Text) : List NamePath :=
  (t.map Prod.fst).filter fun p => p.head? = some top ∧ globMatch pat (p.getLastD [])

/-! ## `mv` -/

/-- The file `src` with the contents `x` under the path `dst`, where it replaces a file. -/
def relocate (t : NodeTree α) (src dst : NamePath) (x : α) : NodeTree α :=
  (dst, .file x) :: t.filter fun e => e.1 ≠ src ∧ e.1 ≠ dst

/-- `rename`, or nothing if `mv -f` reports an error. -/
def rename (t : NodeTree α) (src dst : NamePath) : Option (NodeTree α) :=
  match t.node src with
  | none => none
  | some (.file x) =>
    if src = dst ∨ t.isDir dst then none else some (t.relocate src dst x)
  | some .dir =>
    -- not into itself, and only over an empty directory
    if src <+: dst ∨ ∃ e ∈ t, dst <+: e.1 ∧ ¬ (e.1 = dst ∧ e.2.isDir) then none
    else some ((t.filter fun e => e.1 ≠ dst).map fun e =>
      (if src <+: e.1 then dst ++ e.1.drop src.length else e.1, e.2))

def move (t : NodeTree α) (src dst : Text) : Option (NodeTree α) := do
  let s ← t.resolve src
  let d ← t.resolve dst
  t.rename s d

/-- Moves one file into a directory. `made` are the paths that this command has made, over
which it does not move anything. -/
def moveInto (folder : Text) (s : NodeTree α × List NamePath) (src : Text) :
    NodeTree α × List NamePath :=
  let dst := folder ++ '/' :: lastComponent src
  match s.1.resolve dst, s.1.move src dst with
  | some d, some t => if d ∈ s.2 then s else (t, d :: s.2)
  | _, _ => s

/-- `mv -f` with these operands. -/
def mv (t : NodeTree α) (args : List Text) : NodeTree α :=
  match args with
  | [src, dst] =>
    if t.isFolder dst then (moveInto dst (t, []) src).1 else (t.move src dst).getD t
  | _ =>
    match args.getLast? with
    | none => t
    | some dst =>
      if 3 ≤ args.length ∧ t.isFolder dst then (args.dropLast.foldl (moveInto dst) (t, [])).1
      else t

/-! ## Nodes -/

section

variable {t t' : NodeTree α} {p q : NamePath}

theorem isDir_iff : t.isDir p = true ↔ p = [] ∨ t.node p = some .dir := by
  have hdir : (t.node p).any Node.isDir = true ↔ t.node p = some .dir := by
    rcases t.node p with _ | _ | _ <;> simp [Node.isDir]
  simp [isDir, hdir]

theorem isDir_of_file {x : α} (h : t.node p = some (.file x)) (hp : p ≠ []) : t.isDir p = false := by
  rw [Bool.eq_false_iff, Ne, isDir_iff]
  simp [h, hp]

/-- A tree that is cut down has the nodes that were kept. -/
theorem node_filter (f : NamePath → Prop) [DecidablePred f] (t : NodeTree α) (p : NamePath) :
    node (t.filter fun e => f e.1) p = if f p then node t p else none := by
  induction t with
  | nil => simp [node]
  | cons e t ih =>
    by_cases he : f e.1
    · rw [List.filter_cons_of_pos (by simpa using he), node, node, ih]
      by_cases hp : e.1 = p
      · rw [if_pos hp, if_pos hp, if_pos (hp ▸ he)]
      · rw [if_neg hp, if_neg hp]
    · rw [List.filter_cons_of_neg (by simpa using he), node, ih]
      by_cases hp : e.1 = p
      · rw [if_neg (hp ▸ he), if_neg (hp ▸ he)]
      · rw [if_neg hp]

/-- After a move, the file is at its target and not at its source. -/
theorem node_relocate (t : NodeTree α) (src dst : NamePath) (x : α) (p : NamePath) :
    (t.relocate src dst x).node p =
      if p = dst then some (.file x) else if p = src then none else t.node p := by
  rw [relocate, node, node_filter fun q => q ≠ src ∧ q ≠ dst]
  by_cases hdst : p = dst
  · rw [if_pos hdst.symm, if_pos hdst]
  · rw [if_neg (Ne.symm hdst), if_neg hdst]
    by_cases hsrc : p = src
    · rw [if_pos hsrc, if_neg fun h => h.1 hsrc]
    · rw [if_neg hsrc, if_pos ⟨hsrc, hdst⟩]

theorem exists_node_iff : (∃ n, t.node p = some n) ↔ ∃ e ∈ t, e.1 = p := by
  induction t with
  | nil => simp [node]
  | cons e t ih =>
    rw [node]
    by_cases he : e.1 = p
    · simp [he]
    · simp [he, ih]

theorem mem_of_node {n : Node α} (h : t.node p = some n) : (p, n) ∈ t := by
  induction t with
  | nil => exact absurd h (by simp [node])
  | cons e t ih =>
    rw [node] at h
    split_ifs at h with he
    · rw [← he, ← Option.some.inj h]
      exact List.mem_cons_self
    · exact List.mem_cons_of_mem e (ih h)

/-- Two trees with the same directories. -/
def SameDirs (t t' : NodeTree α) : Prop := ∀ p, t'.isDir p = t.isDir p

theorem SameDirs.refl (t : NodeTree α) : SameDirs t t := fun _ => rfl

/-- Moving a file changes no directory. -/
theorem sameDirs_relocate {src dst : NamePath} {x y : α} (hsrc : t.node src = some (.file x))
    (hne : src ≠ []) (hdst : t.isDir dst = false) : SameDirs t (t.relocate src dst y) := by
  intro p
  by_cases hp : p = []
  · simp [isDir, hp]
  by_cases hpd : p = dst
  · rw [hpd, hdst]
    refine isDir_of_file (x := y) ?_ (hpd ▸ hp)
    rw [node_relocate, if_pos rfl]
  · by_cases hps : p = src
    · rw [hps, isDir_of_file hsrc hne, isDir, node_relocate, if_neg (hps ▸ hpd), if_pos rfl]
      simp [hne]
    · rw [isDir, isDir, node_relocate, if_neg hpd, if_neg hps]

/-! ## Following path names -/

theorem walk_congr (h : SameDirs t t') (here : NamePath) (cs : List Text) :
    t'.walk here cs = t.walk here cs := by
  induction cs generalizing here with
  | nil => rfl
  | cons c cs ih => simp only [walk, h here, ih]

/-- Paths lead to the same places when the directories are the same. -/
theorem resolve_congr (h : SameDirs t t') (w : Text) : t'.resolve w = t.resolve w :=
  walk_congr h _ _

/-- Only directories and names of files are left of a path name. -/
theorem walk_names {here : NamePath} {cs : List Text} (h : t.walk here cs = some q)
    (hhere : ∀ c ∈ here, ¬ IsSpecial c) : ∀ c ∈ q, ¬ IsSpecial c := by
  induction cs generalizing here with
  | nil => exact Option.some.inj h ▸ hhere
  | cons c cs ih =>
    rw [walk] at h
    split_ifs at h with hdir hdot hup
    · exact ih h hhere
    · exact ih h fun b hb => hhere b (List.dropLast_subset _ hb)
    · refine ih h fun b hb => ?_
      rcases List.mem_append.mp hb with hb | hb
      · exact hhere b hb
      · rw [List.mem_singleton.mp hb]
        rintro (h | h | h)
        · exact hdot (Or.inl h)
        · exact hdot (Or.inr h)
        · exact hup h

theorem walk_sublist {here : NamePath} {cs : List Text} (h : t.walk here cs = some q) :
    q.Sublist (here ++ cs) := by
  induction cs generalizing here with
  | nil => simp [← Option.some.inj h]
  | cons c cs ih =>
    rw [walk] at h
    split_ifs at h
    · exact (ih h).trans ((List.Sublist.refl here).append (List.sublist_cons_self c cs))
    · exact (ih h).trans ((List.dropLast_sublist here).append (List.sublist_cons_self c cs))
    · simpa using ih h

/-- The last name stays the last one. -/
theorem walk_concat {here : NamePath} {cs : List Text} {c : Text} (hc : ¬ IsSpecial c)
    (h : t.walk here (cs ++ [c]) = some q) : ∃ d, q = d ++ [c] := by
  induction cs generalizing here with
  | nil =>
    have hdot : ¬ (c = [] ∨ c = ['.']) := fun h' => hc (h'.imp_right Or.inl)
    have hup : c ≠ ['.', '.'] := fun h' => hc (Or.inr (Or.inr h'))
    rw [List.nil_append, walk, if_neg hdot, if_neg hup, walk] at h
    split_ifs at h
    exact ⟨here, (Option.some.inj h).symm⟩
  | cons b cs ih =>
    rw [List.cons_append, walk] at h
    split_ifs at h
    · exact ih h
    · exact ih h
    · exact ih h

/-- A path of plain names through directories leads where it says. -/
theorem walk_of_dirs {here : NamePath} {cs : List Text} (hcs : ∀ c ∈ cs, ¬ IsSpecial c)
    (hdirs : ∀ a b, cs = a ++ b → b ≠ [] → t.isDir (here ++ a) = true) :
    t.walk here cs = some (here ++ cs) := by
  induction cs generalizing here with
  | nil => simp [walk]
  | cons c cs ih =>
    have hc := hcs c List.mem_cons_self
    have hdot : ¬ (c = [] ∨ c = ['.']) := fun h' => hc (h'.imp_right Or.inl)
    have hup : c ≠ ['.', '.'] := fun h' => hc (Or.inr (Or.inr h'))
    have hhere : t.isDir here = true := by
      simpa using hdirs [] (c :: cs) rfl (List.cons_ne_nil _ _)
    rw [walk, if_pos hhere, if_neg hdot, if_neg hup, ih fun b hb => hcs b (List.mem_cons_of_mem c hb)]
    · simp
    · intro a b hab hb
      simpa using hdirs (c :: a) b (by rw [hab]; rfl) hb

/-- A path that is written down is read again. -/
theorem splitOn_render (hne : p ≠ []) (hp : ∀ c ∈ p, '/' ∉ c) : (render p).splitOn '/' = p := by
  rw [render, List.splitOn_intercalate _ hp hne]

/-- The path of something whose parents are directories. -/
theorem resolve_render (hne : p ≠ []) (hp : ∀ c ∈ p, IsName c)
    (hdirs : ∀ a b, p = a ++ b → b ≠ [] → t.isDir a = true) : t.resolve (render p) = some p := by
  rw [resolve, splitOn_render hne fun c hc => (hp c hc).2,
    walk_of_dirs (fun c hc => (hp c hc).1) (by simpa using hdirs), List.nil_append]

/-! ## Moving one file -/

/-- A file is moved to where no directory is. -/
theorem rename_file {src dst : NamePath} {x : α} (hsrc : t.node src = some (.file x))
    (hne : src ≠ dst) (hdst : t.isDir dst = false) : t.rename src dst = some (t.relocate src dst x) := by
  rw [rename, hsrc]
  simp [hne, hdst]

theorem rename_eq_some {src dst : NamePath} (hsrc : t.isDir src = false)
    (h : t.rename src dst = some t') : ∃ x, t.node src = some (.file x) ∧ src ≠ dst ∧
      t.isDir dst = false ∧ t' = t.relocate src dst x := by
  unfold rename at h
  split at h
  case h_1 => exact absurd h (by simp)
  case h_2 x hx =>
    split_ifs at h with hif
    rw [not_or, Bool.not_eq_true] at hif
    exact ⟨x, hx, hif.1, hif.2, (Option.some.inj h).symm⟩
  case h_3 hx =>
    rw [Bool.eq_false_iff, Ne, isDir_iff] at hsrc
    exact absurd (Or.inr hx) hsrc

/-- What `mv` can do with something that is no directory. -/
theorem mv_cases {src dst : Text} (hsrc : ∀ s, t.resolve src = some s → t.isDir s = false) :
    t.mv [src, dst] = t ∨ ∃ s d x, t.resolve src = some s ∧ t.node s = some (.file x) ∧ s ≠ d ∧
      t.isDir d = false ∧ (∀ c ∈ d, ¬ IsSpecial c) ∧ t.mv [src, dst] = t.relocate s d x := by
  have hmove : ∀ w t', t.move src w = some t' → ∃ s d x, t.resolve src = some s ∧
      t.node s = some (.file x) ∧ s ≠ d ∧ t.isDir d = false ∧ (∀ c ∈ d, ¬ IsSpecial c) ∧
      t' = t.relocate s d x := by
    intro w t' h
    simp only [move, Option.bind_eq_bind, Option.bind_eq_some_iff] at h
    obtain ⟨s, hs, d, hd, h⟩ := h
    obtain ⟨x, hx, hne, hdir, ht'⟩ := rename_eq_some (hsrc s hs) h
    exact ⟨s, d, x, hs, hx, hne, hdir, walk_names hd (by simp), ht'⟩
  unfold mv
  simp only
  split_ifs
  · unfold moveInto
    simp only
    split
    case h_1 d t' hd ht' =>
      rw [if_neg List.not_mem_nil]
      exact Or.inr (hmove _ t' ht')
    case h_2 => exact Or.inl rfl
  · cases h : t.move src dst with
    | none => exact Or.inl rfl
    | some t' => exact Or.inr (hmove dst t' h)

/-- A file that is moved to a new name or over a file. -/
theorem mv_file {src dst : NamePath} {x : α} {v w : Text} (hv : t.resolve v = some src)
    (hw : t.resolve w = some dst) (hsrc : t.node src = some (.file x)) (hne : src ≠ dst)
    (hdst : t.isDir dst = false) : t.mv [v, w] = t.relocate src dst x := by
  have hfolder : t.isFolder w = false := by rw [isFolder, hw, Option.any_some, hdst]
  have hmove : t.move v w = some (t.relocate src dst x) := by
    rw [move, hv, hw]
    exact rename_file hsrc hne hdst
  simp [mv, hfolder, hmove]

theorem hasPattern_of_plain {w : Text} (h : ∀ c ∈ w, c ∉ ['*', '?', '[']) :
    hasPattern false w = false := by
  suffices hall : ∀ opened, opened = false → hasPattern opened w = false from hall false rfl
  intro opened hopened
  induction opened, w using hasPattern.induct with
  | case1 => rfl
  | case2 => rfl
  | case3 opened c cs ih =>
    rw [hasPattern]
    exact ih (fun d hd => h d (by simp [hd])) hopened
  | case4 opened c cs hlast hescaped ih =>
    have hc : c ≠ '*' ∧ c ≠ '?' ∧ c ≠ '[' := by simpa using h c List.mem_cons_self
    have hopen : (opened || c == '[') = false := by simp [hopened, hc]
    rw [hasPattern.eq_4 _ _ _ hlast hescaped, ih (fun d hd => h d (by simp [hd])) hopen]
    simp [hc, hopened]

/-- A word without pattern characters stands for itself. -/
theorem pathnames_of_plain {w : Text} (h : ∀ c ∈ w, c ∉ ['*', '?', '[']) : t.pathnames w = [w] := by
  rw [pathnames, hasPattern_of_plain h]
  rfl

end

end NodeTree

end Shell
