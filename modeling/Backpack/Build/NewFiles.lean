import Backpack.Shell.Sed
import Backpack.Shell.NodeTree

/-!
# New configuration files

Packages bring configuration files under names that end in `.new`. `compile.sh` looks for these
under `union` and gives each one its final name, over a file that has it already. The final name
is found by deleting the first `.new` of the whole path, and `$LINE` stands unquoted in the `mv`,
so that a name with a pattern in it is expanded once more.
-/

namespace Backpack.Build

open Shell

variable {α : Type}

/-! ## The pass over the tree -/

def newSuffix : Text := ".new".toList

def newName : Text := "*.new".toList

/-- `\.new` -/
def newPattern : Text := "\\.new".toList

def unionTop : Text := "union".toList

/-- `find union -name '*.new'`, in some order. -/
def newPaths (t : NodeTree α) : List NamePath := t.findName unionTop newName

/-- `sed -e 's/\.new//'`, on the output of `find` -/
def newLines (found : List NamePath) : List Text :=
  readValues (unlines ((fileLines (unlines (found.map render))).map (sedDelete newPattern)))

/-- `mv -f $LINE.new $LINE` -/
def newStep (t : NodeTree α) (line : Text) : NodeTree α :=
  t.mv ((words (line ++ newSuffix) ++ words line).flatMap t.pathnames)

def activate (found : List NamePath) (t : NodeTree α) : NodeTree α := (newLines found).foldl newStep t

/-! ## What is expected -/

/-- The path of the name `n` with `.new` after it, in the directory `d`. -/
def withNew (d : NamePath) (n : Text) : NamePath := d ++ [n ++ newSuffix]

/-- A tree under `union`: names without blanks, parents that are directories, no file with a name
in `.new.new` and no directory with a name in `.new`. -/
structure NewTree (t : NodeTree α) : Prop where
  nodup : (t.map Prod.fst).Nodup
  names : ∀ e ∈ t, ∀ c ∈ e.1, IsName c ∧ NoBlank c
  top : ∀ e ∈ t, e.1.head? = some unionTop
  parents : ∀ e ∈ t, ∀ a b, e.1 = a ++ b → b ≠ [] → t.isDir a = true
  files : ∀ d n x, t.node (withNew d (n ++ newSuffix)) ≠ some (.file x)
  dirs : ∀ d n, t.node (withNew d n) ≠ some .dir

/-- Every file is where its name without `.new` says, and the others stayed. -/
structure Activated (t t' : NodeTree α) : Prop where
  moved : ∀ d n x, t.node (withNew d n) = some (.file x) → t'.node (d ++ [n]) = some (.file x)
  gone : ∀ d n x, t'.node (withNew d n) ≠ some (.file x)
  kept : ∀ p x, t.node p = some (.file x) → (∀ d n, p ≠ withNew d n) →
    (∀ d n y, p = d ++ [n] → t.node (withNew d n) ≠ some (.file y)) →
    t'.node p = some (.file x)

/-- The final name of a file: one that a file can have and no directory has, and in its path no
`.new` and no backslash. -/
def IsFinal (t : NodeTree α) (d : NamePath) (n : Text) : Prop :=
  ¬ IsSpecial n ∧ t.isDir (d ++ [n]) = false ∧ ¬ newSuffix <:+: render (d ++ [n]) ∧
    '\\' ∉ render (d ++ [n])

instance (t : NodeTree α) (d : NamePath) (n : Text) : Decidable (IsFinal t d n) :=
  inferInstanceAs (Decidable (_ ∧ _))

/-- The word and the word with `.new` stand for themselves. -/
def Literal (t : NodeTree α) (line : Text) : Prop :=
  t.pathnames (line ++ newSuffix) = [line ++ newSuffix] ∧ t.pathnames line = [line]

/-- All final names are, and no word is expanded when its turn comes. -/
def NewFits (found : List NamePath) (t : NodeTree α) : Prop :=
  (∀ d n x, t.node (withNew d n) = some (.file x) → IsFinal t d n) ∧
    EveryTurn newStep (fun t line _ => Literal t line) t (newLines found)

/-- No path has the characters with which patterns begin. -/
def NoPatterns (t : NodeTree α) : Prop :=
  ∀ d n x, t.node (withNew d n) = some (.file x) → ∀ c ∈ render (d ++ [n]), c ∉ ['*', '?', '[']

/-! ## Paths and their texts -/

/-- A path is written with a slash after each directory. -/
theorem render_concat (d : NamePath) (n : Text) : render (d ++ [n]) =
    d.flatMap (fun c => c ++ ['/']) ++ n := by
  induction d with
  | nil => simp [render]
  | cons c d ih =>
    have hne : d ++ [n] ≠ [] := by simp
    rw [render, List.cons_append, List.intercalate_cons_of_ne_nil hne, ← render, ih]
    simp

/-- The path of a new file is the path with the ending. -/
theorem render_withNew (d : NamePath) (n : Text) :
    render (withNew d n) = render (d ++ [n]) ++ newSuffix := by
  rw [withNew, render_concat, render_concat, List.append_assoc]

/-- Different files have different new files. -/
theorem withNew_inj {d d' : NamePath} {n n' : Text} (h : withNew d n = withNew d' n') :
    d = d' ∧ n = n' := by
  obtain ⟨hd, hn⟩ := List.append_singleton_inj.mp h
  exact ⟨hd, List.append_cancel_right hn⟩

/-- The characters of a path are slashes and those of its names. -/
theorem mem_render {p : NamePath} {a : Char} (h : a ∈ render p) : a = '/' ∨ ∃ c ∈ p, a ∈ c := by
  rcases List.eq_nil_or_concat p with rfl | ⟨d, n, rfl⟩
  · simp [render] at h
  · rw [List.concat_eq_append, render_concat] at h
    rcases List.mem_append.mp h with h | h
    · obtain ⟨c, hc, ha⟩ := List.mem_flatMap.mp h
      rcases List.mem_append.mp ha with ha | ha
      · exact Or.inr ⟨c, by simp [hc], ha⟩
      · exact Or.inl (List.mem_singleton.mp ha)
    · exact Or.inr ⟨n, by simp, h⟩

/-- Writing a path adds no backslash. -/
theorem count_render (p : NamePath) : (render p).count '\\' = p.flatten.count '\\' := by
  rcases List.eq_nil_or_concat p with rfl | ⟨d, n, rfl⟩
  · rfl
  · have hdir : (d.flatMap fun c => c ++ ['/']).count '\\' = d.flatten.count '\\' := by
      induction d with
      | nil => rfl
      | cons c d ih => simp [List.count_append, ih]
    rw [List.concat_eq_append, render_concat, List.count_append, hdir]
    simp [List.count_append]

/-- A name with the ending is neither dot nor dot dot. -/
theorem isSpecial_append_new (c : Text) : ¬ IsSpecial (c ++ newSuffix) := by
  have hlen : (c ++ newSuffix).length = c.length + 4 := by
    rw [List.length_append]
    rfl
  rintro (h | h | h) <;> simp [h] at hlen

/-- The last name of a path name with `.new` behind it ends in `.new`. -/
theorem splitOn_append_new (l : Text) :
    ∃ cs c, l.splitOn '/' = cs ++ [c] ∧ (l ++ newSuffix).splitOn '/' = cs ++ [c ++ newSuffix] := by
  rcases List.eq_nil_or_concat (l.splitOn '/') with h | ⟨cs, c, h⟩
  · exact absurd h (List.splitOn_ne_nil _ _)
  · rw [List.concat_eq_append] at h
    exact ⟨cs, c, h, splitOn_append h (show newSuffix.splitOn '/' = [newSuffix] by decide)⟩

section

variable {t t' : NodeTree α} {found : List NamePath} {line : Text}

/-- A line with the ending names a file with the ending, if any. -/
theorem resolve_append_new {s : NamePath} (h : t.resolve (line ++ newSuffix) = some s) :
    ∃ d c, s = withNew d c ∧ ∃ cs, line.splitOn '/' = cs ++ [c] := by
  obtain ⟨cs, c, hcs, hnew⟩ := splitOn_append_new line
  rw [NodeTree.resolve, hnew] at h
  obtain ⟨d, hd⟩ := NodeTree.walk_concat (isSpecial_append_new c) h
  exact ⟨d, c, hd, cs, hcs⟩

/-- With `.new` at the end of the line, the last name ends in `.new.new`. -/
theorem resolve_append_new_new {l : Text} {s : NamePath}
    (h : t.resolve (l ++ newSuffix ++ newSuffix) = some s) :
    ∃ d c, s = withNew d (c ++ newSuffix) := by
  obtain ⟨d, c, rfl, cs, hcs⟩ := resolve_append_new h
  obtain ⟨cs', c', -, hnew⟩ := splitOn_append_new l
  rw [hnew] at hcs
  exact ⟨d, c', by rw [(List.append_singleton_inj.mp hcs).2]⟩

/-! ## What `find` and `sed` deliver -/

/-- The dot of the pattern stands for itself behind its backslash. -/
theorem newPattern_reads : parseRe .basic newPattern = some (Re.seqAll (newSuffix.map Re.lit)) := rfl

theorem dot_not_mem : '.' ∉ "new".toList := by decide

/-- sed deletes the first ending it finds. -/
theorem sedDelete_eq (l : Text) :
    sedDelete newPattern l = deleteFirst (Re.seqAll (newSuffix.map Re.lit)) l.length l := by
  rw [sedDelete, newPattern_reads]

/-- Where the path has no ending before, that is the ending of the file. -/
theorem sedDelete_withNew {d : NamePath} {n : Text} (h : ¬ newSuffix <:+: render (d ++ [n])) :
    sedDelete newPattern (render (withNew d n)) = render (d ++ [n]) := by
  rw [sedDelete_eq, render_withNew]
  exact deleteFirst_append dot_not_mem h

/-- A `.new` inside the path is deleted in place of the one at its end. -/
theorem sedDelete_of_infix {d : NamePath} {n : Text} (h : newSuffix <:+: render (d ++ [n])) :
    ∃ l, sedDelete newPattern (render (withNew d n)) = l ++ newSuffix := by
  rw [sedDelete_eq, render_withNew]
  obtain ⟨l, hl⟩ := @suffix_deleteFirst_append
    (render (d ++ [n]) ++ newSuffix).length '.' "new".toList dot_not_mem _ h
  exact ⟨l, hl.symm⟩

/-- The new paths are the files with the ending. -/
theorem mem_newPaths (ht : NewTree t) {q : NamePath} :
    q ∈ newPaths t ↔ ∃ d n x, q = withNew d n ∧ t.node q = some (.file x) := by
  have hglob : ∀ s, globMatch newName s = true ↔ newSuffix <:+ s := fun s =>
    @globMatch_many_ordinary newSuffix s (by decide)
  rw [newPaths, NodeTree.findName, List.mem_filter, List.mem_map, ← NodeTree.exists_node_iff]
  simp only [Bool.decide_and, Bool.and_eq_true, decide_eq_true_eq, hglob]
  constructor
  · rintro ⟨⟨n, hn⟩, htop, m, hm⟩
    rcases List.eq_nil_or_concat q with rfl | ⟨d, c, rfl⟩
    · simp at htop
    · have hc : c = m ++ newSuffix := by simpa using hm.symm
      have hq : d.concat c = withNew d m := by rw [List.concat_eq_append, hc, withNew]
      cases n with
      | file x => exact ⟨d, m, x, hq, hn⟩
      | dir => exact absurd (hq ▸ hn) (ht.dirs d m)
  · rintro ⟨d, n, x, rfl, hx⟩
    have htop := ht.top _ (NodeTree.mem_of_node hx)
    refine ⟨⟨_, hx⟩, htop, n, ?_⟩
    simp [withNew]

theorem newPaths_nodup (ht : NewTree t) : (newPaths t).Nodup := ht.nodup.filter _

section

variable (ht : NewTree t) (hfound : found.Perm (newPaths t))
include ht hfound

/-- find gives the files with the ending. -/
theorem mem_found {q : NamePath} :
    q ∈ found ↔ ∃ d n x, q = withNew d n ∧ t.node q = some (.file x) := by
  rw [hfound.mem_iff, mem_newPaths ht]

/-- A path that is found has plain names. -/
theorem names_of_mem_found {q : NamePath} (hq : q ∈ found) : ∀ c ∈ q, IsName c ∧ NoBlank c := by
  obtain ⟨d, n, x, -, hx⟩ := (mem_found ht hfound).mp hq
  exact ht.names _ (NodeTree.mem_of_node hx)

/-- So it has no blank. -/
theorem noBlank_of_mem_found {q : NamePath} (hq : q ∈ found) : NoBlank (render q) := by
  intro a ha
  rcases mem_render ha with rfl | ⟨c, hc, hac⟩
  · decide
  · exact (names_of_mem_found ht hfound hq c hc).2 a hac

/-- The loop reads the paths without their endings. -/
theorem newLines_eq : newLines found =
    readValues (unlines (found.map fun q => sedDelete newPattern (render q))) := by
  have hlines : ∀ l ∈ found.map render, '\n' ∉ l := by
    intro l hl hnl
    obtain ⟨q, hq, rfl⟩ := List.mem_map.mp hl
    exact absurd (noBlank_of_mem_found ht hfound hq '\n' hnl) (by decide)
  rw [newLines, fileLines_unlines hlines, List.map_map]
  rfl

theorem noBlank_sedDelete {q : NamePath} (hq : q ∈ found) :
    NoBlank (sedDelete newPattern (render q)) := by
  intro a ha
  rw [sedDelete_eq] at ha
  exact noBlank_of_mem_found ht hfound hq a ((deleteFirst_sublist _ _).subset ha)

/-- A line has the characters of some path. -/
theorem mem_of_mem_newLines (hl : line ∈ newLines found) {a : Char} (ha : a ∈ line) :
    isBlank a = false ∧ ∃ q ∈ found, a ∈ render q := by
  rw [newLines_eq ht hfound] at hl
  obtain ⟨ha, hnl⟩ := (mem_of_mem_readFrom hl ha).resolve_left List.not_mem_nil
  obtain ⟨l, hlmem, hal⟩ := List.mem_flatMap.mp ha
  obtain ⟨q, hq, rfl⟩ := List.mem_map.mp hlmem
  have hal : a ∈ sedDelete newPattern (render q) :=
    (List.mem_append.mp hal).resolve_right fun h => hnl (List.mem_singleton.mp h)
  refine ⟨noBlank_sedDelete ht hfound hq a hal, q, hq, ?_⟩
  rw [sedDelete_eq] at hal
  exact (deleteFirst_sublist _ _).subset hal

/-- Without backslashes `read` delivers the lines as `sed` writes them. -/
theorem newLines_of_no_backslash (h : ∀ q ∈ found, '\\' ∉ render q) :
    newLines found = found.map fun q => sedDelete newPattern (render q) := by
  rw [newLines_eq ht hfound]
  refine readValues_unlines_of_trim fun l hl => ?_
  obtain ⟨q, hq, rfl⟩ := List.mem_map.mp hl
  have hblank := noBlank_sedDelete ht hfound hq
  refine ⟨fun hnl => absurd (hblank '\n' hnl) (by decide), fun hb => ?_, trim_of_noBlank hblank⟩
  rw [sedDelete_eq] at hb
  exact h q hq ((deleteFirst_sublist _ _).subset hb)

end

/-! ## One turn of the loop -/

/-- A line without blanks is one word. -/
theorem words_append_new (h : NoBlank line) : words (line ++ newSuffix) = [line ++ newSuffix] := by
  refine words_of_noBlank (fun a ha => ?_) (by simp [newSuffix])
  rcases List.mem_append.mp ha with ha | ha
  · exact h a ha
  · exact (show NoBlank newSuffix by decide) a ha

/-- One turn of the loop is one mv. -/
theorem newStep_eq (h : NoBlank line) (hne : line ≠ []) (hlit : Literal t line) :
    newStep t line = t.mv [line ++ newSuffix, line] := by
  rw [newStep, words_append_new h, words_of_noBlank h hne]
  simp [hlit.1, hlit.2]

/-- An empty line changes nothing. -/
theorem newStep_nil (hlit : Literal t []) : newStep t [] = t := by
  have hnil : words [] = [] := rfl
  have hone : t.pathnames newSuffix = [newSuffix] := hlit.1
  rw [newStep, words_append_new (show NoBlank [] by decide), hnil]
  simp [hone, NodeTree.mv]

/-- A turn moves one file at most, the one that the line with `.new` names. -/
theorem newStep_cases (hdirs : ∀ d n, t.node (withNew d n) ≠ some .dir) (h : NoBlank line)
    (hlit : Literal t line) : newStep t line = t ∨ ∃ s d x,
      t.resolve (line ++ newSuffix) = some s ∧ t.node s = some (.file x) ∧ s ≠ [] ∧ s ≠ d ∧
      t.isDir d = false ∧ (∀ c ∈ d, ¬ IsSpecial c) ∧ newStep t line = t.relocate s d x := by
  by_cases hne : line = []
  · subst hne
    exact Or.inl (newStep_nil hlit)
  · have hsrc : ∀ s, t.resolve (line ++ newSuffix) = some s → s ≠ [] ∧ t.isDir s = false := by
      intro s hs
      obtain ⟨d, c, rfl, -⟩ := resolve_append_new hs
      have hcons : withNew d c ≠ [] := by simp [withNew]
      refine ⟨hcons, ?_⟩
      rw [Bool.eq_false_iff, Ne, NodeTree.isDir_iff]
      exact fun hdir => hdir.elim hcons (hdirs d c)
    rw [newStep_eq h hne hlit]
    rcases @NodeTree.mv_cases α t (line ++ newSuffix) line fun s hs => (hsrc s hs).2 with
      hmv | ⟨s, d, x, hs, hx⟩
    · exact Or.inl hmv
    · exact Or.inr ⟨s, d, x, hs, hx.1, (hsrc s hs).1, hx.2⟩

/-! ## Runs in which nothing is expanded -/

/-- The directories are those of `t`, and there is nothing with the name of a directory entry that
leads elsewhere. -/
structure Steady (t t' : NodeTree α) : Prop where
  dirs : t.SameDirs t'
  names : ∀ p n, t'.node p = some n → ∀ c ∈ p, ¬ IsSpecial c

/-- The loop begins with the tree as it was. -/
theorem NewTree.steady (ht : NewTree t) : Steady t t where
  dirs := NodeTree.SameDirs.refl t
  names := fun _ _ hp c hc => (ht.names _ (NodeTree.mem_of_node hp) c hc).1.1

/-- No directory becomes one with a name in `.new`. -/
theorem NewTree.dirs_of_steady (ht : NewTree t) (h : t.SameDirs t') (d : NamePath) (n : Text) :
    t'.node (withNew d n) ≠ some .dir := by
  intro hdir
  have hsame := h (withNew d n)
  rw [NodeTree.isDir_iff.mpr (Or.inr hdir), eq_comm, NodeTree.isDir_iff] at hsame
  rcases hsame with hnil | hdir'
  · exact absurd hnil (by simp [withNew])
  · exact ht.dirs d n hdir'

/-- A turn keeps the directories, and no name becomes a dot. -/
theorem Steady.newStep (ht : NewTree t) (h : Steady t t') (hline : NoBlank line)
    (hlit : Literal t' line) : Steady t (newStep t' line) := by
  rcases newStep_cases (ht.dirs_of_steady h.dirs) hline hlit with
    heq | ⟨s, d, x, -, hx, hne, -, hdir, hnames, heq⟩
  · rw [heq]
    exact h
  · rw [heq]
    refine ⟨fun p => ?_, fun p n hp => ?_⟩
    · rw [NodeTree.sameDirs_relocate hx hne hdir p, h.dirs p]
    · rw [NodeTree.node_relocate] at hp
      split_ifs at hp with hpd
      · exact hpd ▸ hnames
      · exact h.names p n hp

/-- A file stays unless it is the one that the line names. -/
theorem newStep_keeps (ht : NewTree t) (h : Steady t t') (hline : NoBlank line)
    (hlit : Literal t' line) {q : NamePath} {x : α} (hq : t'.node q = some (.file x))
    (hnot : t.resolve (line ++ newSuffix) ≠ some q) :
    ∃ y, (newStep t' line).node q = some (.file y) := by
  rcases newStep_cases (ht.dirs_of_steady h.dirs) hline hlit with
    heq | ⟨s, d, y, hs, -, -, -, -, -, heq⟩
  · exact ⟨x, by rw [heq, hq]⟩
  · rw [heq, NodeTree.node_relocate]
    by_cases hqd : q = d
    · exact ⟨y, if_pos hqd⟩
    · have hqs : q ≠ s := by
        rintro rfl
        rw [NodeTree.resolve_congr h.dirs] at hs
        exact hnot hs
      exact ⟨x, by rw [if_neg hqd, if_neg hqs, hq]⟩

/-- So does the loop. -/
theorem foldl_newStep_keeps (ht : NewTree t) {ls : List Text}
    (hls : ∀ l ∈ ls, NoBlank l ∧ ∀ t', Literal (α := α) t' l) (h : Steady t t') :
    Steady t (ls.foldl newStep t') ∧ ∀ q x, t'.node q = some (.file x) →
      (∀ l ∈ ls, t.resolve (l ++ newSuffix) ≠ some q) →
      ∃ y, (ls.foldl newStep t').node q = some (.file y) := by
  induction ls generalizing t' with
  | nil => exact ⟨h, fun q x hq _ => ⟨x, hq⟩⟩
  | cons l ls ih =>
    obtain ⟨hblank, hlit⟩ := hls l List.mem_cons_self
    have hstep := h.newStep ht hblank (hlit t')
    obtain ⟨hsteady, hkeeps⟩ := ih (fun k hk => hls k (List.mem_cons_of_mem l hk)) hstep
    refine ⟨hsteady, fun q x hq hnot => ?_⟩
    obtain ⟨y, hy⟩ := newStep_keeps ht h hblank (hlit t') hq (hnot l List.mem_cons_self)
    exact hkeeps q y hy fun k hk => hnot k (List.mem_cons_of_mem l hk)

/-! ## What has to hold of the names -/

/-- A path has no more backslashes than the line that names it. -/
theorem count_le_of_resolve {l : Text} {q : NamePath} (h : t.resolve (l ++ newSuffix) = some q) :
    (render q).count '\\' ≤ l.count '\\' := by
  have hsub := NodeTree.walk_sublist h
  rw [List.nil_append] at hsub
  have hjoin : render ((l ++ newSuffix).splitOn '/') = l ++ newSuffix := List.intercalate_splitOn '/'
  calc (render q).count '\\' = q.flatten.count '\\' := count_render q
    _ ≤ ((l ++ newSuffix).splitOn '/').flatten.count '\\' := hsub.flatten.count_le _
    _ = (l ++ newSuffix).count '\\' := by rw [← count_render, hjoin]
    _ = l.count '\\' := by
      rw [List.count_append]
      rfl

section

variable (ht : NewTree t) (hfound : found.Perm (newPaths t)) (hplain : NoPatterns t)
include ht hfound hplain

theorem literal_of_mem_newLines (hl : line ∈ newLines found) :
    NoBlank line ∧ ∀ t', Literal (α := α) t' line := by
  have hmem := fun {a : Char} (ha : a ∈ line) => mem_of_mem_newLines ht hfound hl ha
  have hchars : ∀ a ∈ line, a ∉ ['*', '?', '['] := by
    intro a ha
    obtain ⟨-, q, hq, haq⟩ := hmem ha
    obtain ⟨d, n, x, rfl, hx⟩ := (mem_found ht hfound).mp hq
    rw [render_withNew] at haq
    rcases List.mem_append.mp haq with haq | haq
    · exact hplain d n x hx a haq
    · exact (show ∀ a ∈ newSuffix, a ∉ ['*', '?', '['] by decide) a haq
  refine ⟨fun a ha => (hmem ha).1, fun t' => ⟨?_, ?_⟩⟩
  · refine NodeTree.pathnames_of_plain fun a ha => ?_
    rcases List.mem_append.mp ha with ha | ha
    · exact hchars a ha
    · exact (show ∀ a ∈ newSuffix, a ∉ ['*', '?', '['] by decide) a ha
  · exact NodeTree.pathnames_of_plain hchars

/-- Every new file is named by some line. -/
theorem exists_line (h : Activated t (activate found t)) {q : NamePath} (hq : q ∈ found) :
    ∃ l ∈ newLines found, t.resolve (l ++ newSuffix) = some q := by
  by_contra hnot
  obtain ⟨d, n, x, rfl, hx⟩ := (mem_found ht hfound).mp hq
  obtain ⟨-, hkeeps⟩ := foldl_newStep_keeps ht
    (fun l hl => literal_of_mem_newLines ht hfound hplain hl) ht.steady
  obtain ⟨y, hy⟩ := hkeeps _ x hx fun l hl heq => hnot ⟨l, hl, heq⟩
  exact h.gone d n y hy

/-- `read` takes away half of the backslashes at least, so there are none. -/
theorem no_backslash (h : Activated t (activate found t)) : ∀ q ∈ found, '\\' ∉ render q := by
  have hnodup : found.Nodup := hfound.nodup_iff.mpr (newPaths_nodup ht)
  have hsub : found.Subperm ((newLines found).filterMap fun l => t.resolve (l ++ newSuffix)) := by
    refine hnodup.subperm fun q hq => ?_
    obtain ⟨l, hl, hres⟩ := exists_line ht hfound hplain h hq
    exact List.mem_filterMap.mpr ⟨l, hl, hres⟩
  have hnamed : ∀ ls : List Text,
      ((ls.filterMap fun l => t.resolve (l ++ newSuffix)).map fun q =>
        (render q).count '\\').sum ≤ (ls.map (List.count '\\')).sum := by
    intro ls
    induction ls with
    | nil => simp
    | cons l ls ih =>
      rw [List.map_cons, List.sum_cons]
      cases hres : t.resolve (l ++ newSuffix) with
      | none =>
        simp only [List.filterMap_cons, hres]
        omega
      | some q =>
        have hle := count_le_of_resolve hres
        simp only [List.filterMap_cons, hres, List.map_cons, List.sum_cons]
        omega
  have hpaths : (found.map fun q => (render q).count '\\').sum ≤
      ((newLines found).map (List.count '\\')).sum := by
    obtain ⟨ps, hperm, hps⟩ := hsub
    calc (found.map fun q => (render q).count '\\').sum
        = (ps.map fun q => (render q).count '\\').sum := (hperm.map _).sum_eq.symm
      _ ≤ _ := (hps.map _).sum_le_sum fun _ _ => Nat.zero_le _
      _ ≤ _ := hnamed _
  have hread : 2 * ((newLines found).map (List.count '\\')).sum ≤
      (found.map fun q => (render q).count '\\').sum := by
    rw [newLines_eq ht hfound]
    refine (count_readFrom [] _).trans ?_
    rw [List.count_nil, Nat.mul_zero, Nat.zero_add, unlines, List.count_flatMap, List.map_map]
    refine (List.sum_le_sum fun q _ => ?_)
    have hsame : (sedDelete newPattern (render q)).count '\\' = (render q).count '\\' := by
      rw [sedDelete_eq]
      exact count_deleteFirst (by decide) _
    simp [List.count_append, hsame]
  intro q hq
  have hzero : (found.map fun q => (render q).count '\\').sum = 0 := by omega
  have hcount := (List.sum_eq_zero_iff.mp hzero) _ (List.mem_map_of_mem hq)
  exact List.count_eq_zero.mp hcount

/-- When all files are activated, the condition holds. -/
theorem newFits_of_activated (h : Activated t (activate found t)) : NewFits found t := by
  have hlit := fun l (hl : l ∈ newLines found) => literal_of_mem_newLines ht hfound hplain hl
  obtain ⟨hsteady, -⟩ := foldl_newStep_keeps ht hlit ht.steady
  refine ⟨fun d n x hx => ?_, ?_⟩
  · have hq : withNew d n ∈ found := (mem_found ht hfound).mpr ⟨d, n, x, rfl, hx⟩
    have hmoved := h.moved d n x hx
    have hfinal : (activate found t).isDir (d ++ [n]) = false :=
      NodeTree.isDir_of_file hmoved (by simp)
    refine ⟨hsteady.names _ _ hmoved n (by simp), (hsteady.dirs _).symm.trans hfinal, ?_, ?_⟩
    · have hslash := no_backslash ht hfound hplain h
      obtain ⟨l, hl, hres⟩ := exists_line ht hfound hplain h hq
      rw [newLines_of_no_backslash ht hfound hslash] at hl
      obtain ⟨q, hqfound, rfl⟩ := List.mem_map.mp hl
      obtain ⟨d', n', y, rfl, hy⟩ := (mem_found ht hfound).mp hqfound
      by_cases hinfix : newSuffix <:+: render (d' ++ [n'])
      · -- then the line leads to a name in `.new.new`
        obtain ⟨l, hl⟩ := sedDelete_of_infix hinfix
        rw [hl] at hres
        obtain ⟨e, c, he⟩ := resolve_append_new_new hres
        exact absurd (he ▸ hx) (ht.files e c x)
      · have hmem := NodeTree.mem_of_node hy
        have hself := NodeTree.resolve_render (by simp [withNew])
          (fun c hc => (ht.names _ hmem c hc).1) (ht.parents _ hmem)
        rw [sedDelete_withNew hinfix, ← render_withNew, hself] at hres
        obtain ⟨rfl, rfl⟩ := withNew_inj (Option.some.inj hres)
        exact hinfix
    · intro hmem
      refine no_backslash ht hfound hplain h _ hq ?_
      rw [render_withNew]
      exact List.mem_append_left _ hmem
  · suffices hall : ∀ (ls : List Text) (t' : NodeTree α), (∀ l ∈ ls, l ∈ newLines found) →
        EveryTurn newStep (fun t line _ => Literal t line) t' ls from
      hall _ t fun l hl => hl
    intro ls
    induction ls with
    | nil => exact fun _ _ => trivial
    | cons l ls ih =>
      intro t' hls
      exact ⟨(hlit l (hls l List.mem_cons_self)).2 t',
        ih _ fun k hk => hls k (List.mem_cons_of_mem l hk)⟩

end

/-! ## Runs in which every line has its turn -/

/-- After the turns of `done`: the new files of these are where they should be. -/
structure Progress (t t' : NodeTree α) (done : List (NamePath × Text)) : Prop where
  target : ∀ p ∈ done, t'.node (p.1 ++ [p.2]) = t.node (withNew p.1 p.2)
  source : ∀ p ∈ done, t'.node (withNew p.1 p.2) = none
  other : ∀ q, (∀ p ∈ done, q ≠ p.1 ++ [p.2] ∧ q ≠ withNew p.1 p.2) → t'.node q = t.node q

/-- New files with a final name. -/
def Movable (t : NodeTree α) (p : NamePath × Text) : Prop :=
  (∃ x, t.node (withNew p.1 p.2) = some (.file x)) ∧ IsFinal t p.1 p.2

/-- The directories are as they were. -/
theorem Progress.sameDirs {done : List (NamePath × Text)} (h : Progress t t' done)
    (hdone : ∀ p ∈ done, Movable t p) : t.SameDirs t' := by
  intro q
  by_cases hq : ∃ p ∈ done, q = p.1 ++ [p.2] ∨ q = withNew p.1 p.2
  · obtain ⟨p, hp, hq⟩ := hq
    obtain ⟨⟨x, hx⟩, hfinal⟩ := hdone p hp
    rcases hq with rfl | rfl
    · rw [hfinal.2.1]
      exact NodeTree.isDir_of_file ((h.target p hp).trans hx) (by simp)
    · have hne : withNew p.1 p.2 ≠ [] := by simp [withNew]
      rw [NodeTree.isDir_of_file hx hne, NodeTree.isDir, h.source p hp]
      simp [hne]
  · push Not at hq
    rw [NodeTree.isDir, NodeTree.isDir, h.other q hq]

/-- The final name of a file is not the name of a new file. -/
theorem NewTree.target_ne_withNew (ht : NewTree t) {p q : NamePath × Text} (hp : Movable t p) :
    p.1 ++ [p.2] ≠ withNew q.1 q.2 := by
  intro heq
  obtain ⟨⟨x, hx⟩, -⟩ := hp
  obtain ⟨hd, hn⟩ := List.append_singleton_inj.mp heq
  rw [hd, hn] at hx
  exact ht.files _ _ x hx

section

variable {p : NamePath × Text}

/-- The target has plain names. -/
theorem NewTree.names_target (ht : NewTree t) (hp : Movable t p) :
    ∀ c ∈ p.1 ++ [p.2], IsName c ∧ NoBlank c := by
  obtain ⟨⟨x, hx⟩, hname, -⟩ := hp
  have hmem := NodeTree.mem_of_node hx
  intro c hc
  rcases List.mem_append.mp hc with hc | hc
  · exact ht.names _ hmem c (List.mem_append_left _ hc)
  · obtain rfl := List.mem_singleton.mp hc
    have hnew := ht.names _ hmem (p.2 ++ newSuffix) (by simp [withNew])
    exact ⟨⟨hname, fun hslash => hnew.1.2 (List.mem_append_left _ hslash)⟩,
      fun a ha => hnew.2 a (List.mem_append_left _ ha)⟩

/-- The target of the mv is the path itself. -/
theorem NewTree.resolve_target (ht : NewTree t) (hp : Movable t p) :
    t.resolve (render (p.1 ++ [p.2])) = some (p.1 ++ [p.2]) := by
  obtain ⟨x, hx⟩ := hp.1
  have hmem := NodeTree.mem_of_node hx
  -- both names stand in the same directory
  have hparents : ∀ a b, p.1 ++ [p.2] = a ++ b → b ≠ [] → t.isDir a = true := by
    intro a b hab hb
    obtain ⟨b, c, rfl⟩ := (List.eq_nil_or_concat b).resolve_left hb
    rw [List.concat_eq_append, ← List.append_assoc] at hab
    obtain ⟨hd, -⟩ := List.append_singleton_inj.mp hab
    refine ht.parents _ hmem a (b ++ [p.2 ++ newSuffix]) ?_ (by simp)
    rw [← List.append_assoc, ← hd, withNew]
  exact NodeTree.resolve_render (by simp) (fun c hc => (ht.names_target hp c hc).1) hparents

/-- Its source is the path with the ending. -/
theorem NewTree.resolve_new (ht : NewTree t) (hp : Movable t p) :
    t.resolve (render (p.1 ++ [p.2]) ++ newSuffix) = some (withNew p.1 p.2) := by
  obtain ⟨x, hx⟩ := hp.1
  have hmem := NodeTree.mem_of_node hx
  rw [← render_withNew]
  exact NodeTree.resolve_render (by simp [withNew]) (fun c hc => (ht.names _ hmem c hc).1)
    (ht.parents _ hmem)

/-- The turn for a new file moves it. -/
theorem NewTree.newStep_eq (ht : NewTree t) (hp : Movable t p) (hsame : t.SameDirs t')
    (hlit : Literal t' (render (p.1 ++ [p.2]))) {x : α}
    (hsource : t'.node (withNew p.1 p.2) = some (.file x)) :
    newStep t' (render (p.1 ++ [p.2])) = t'.relocate (withNew p.1 p.2) (p.1 ++ [p.2]) x := by
  have htarget : t'.resolve (render (p.1 ++ [p.2])) = some (p.1 ++ [p.2]) := by
    rw [NodeTree.resolve_congr hsame, ht.resolve_target hp]
  have hnew : t'.resolve (render (p.1 ++ [p.2]) ++ newSuffix) = some (withNew p.1 p.2) := by
    rw [NodeTree.resolve_congr hsame, ht.resolve_new hp]
  have hblank : NoBlank (render (p.1 ++ [p.2])) := by
    intro a ha
    rcases mem_render ha with rfl | ⟨c, hc, hac⟩
    · decide
    · exact (ht.names_target hp c hc).2 a hac
  have hline : render (p.1 ++ [p.2]) ≠ [] := by
    rw [render_concat]
    exact List.append_ne_nil_of_right_ne_nil _ fun heq => hp.2.1 (Or.inl heq)
  rw [Build.newStep_eq hblank hline hlit]
  exact NodeTree.mv_file hnew htarget hsource (ht.target_ne_withNew hp).symm
    ((hsame _).trans hp.2.2.1)

/-- The names of two new files have nothing in common. -/
theorem NewTree.names_ne (ht : NewTree t) {q : NamePath × Text} (hq : Movable t q) (hqp : q ≠ p) :
    withNew p.1 p.2 ≠ q.1 ++ [q.2] ∧ withNew p.1 p.2 ≠ withNew q.1 q.2 ∧
      p.1 ++ [p.2] ≠ q.1 ++ [q.2] := by
  refine ⟨(ht.target_ne_withNew hq).symm, fun heq => ?_, fun heq => ?_⟩
  · exact hqp (Prod.ext (withNew_inj heq).1 (withNew_inj heq).2).symm
  · obtain ⟨hd, hn⟩ := List.append_singleton_inj.mp heq
    exact hqp (Prod.ext hd hn).symm

end

/-- A turn moves its file and no other. -/
theorem Progress.newStep (ht : NewTree t) {done : List (NamePath × Text)} {p : NamePath × Text}
    (h : Progress t t' done) (hdone : ∀ q ∈ done, Movable t q) (hp : Movable t p)
    (hnot : p ∉ done) (hlit : Literal t' (render (p.1 ++ [p.2]))) :
    Progress t (newStep t' (render (p.1 ++ [p.2]))) (p :: done) := by
  obtain ⟨x, hx⟩ := hp.1
  have hne : ∀ q ∈ done, withNew p.1 p.2 ≠ q.1 ++ [q.2] ∧ withNew p.1 p.2 ≠ withNew q.1 q.2 ∧
      p.1 ++ [p.2] ≠ q.1 ++ [q.2] := fun q hq =>
    ht.names_ne (hdone q hq) fun heq => hnot (heq ▸ hq)
  have hsource : t'.node (withNew p.1 p.2) = some (.file x) :=
    (h.other _ fun q hq => ⟨(hne q hq).1, (hne q hq).2.1⟩).trans hx
  have hpne : p.1 ++ [p.2] ≠ withNew p.1 p.2 := ht.target_ne_withNew hp
  rw [ht.newStep_eq hp (h.sameDirs hdone) hlit hsource]
  refine ⟨fun q hq => ?_, fun q hq => ?_, fun q hq => ?_⟩
  · rw [NodeTree.node_relocate]
    rcases List.mem_cons.mp hq with rfl | hq
    · rw [if_pos rfl, hx]
    · rw [if_neg (hne q hq).2.2.symm, if_neg (hne q hq).1.symm, h.target q hq]
  · rw [NodeTree.node_relocate]
    rcases List.mem_cons.mp hq with rfl | hq
    · rw [if_neg hpne.symm, if_pos rfl]
    · have hqp : withNew q.1 q.2 ≠ p.1 ++ [p.2] := (ht.target_ne_withNew hp).symm
      rw [if_neg hqp, if_neg (hne q hq).2.1.symm, h.source q hq]
  · have hqp := hq p List.mem_cons_self
    rw [NodeTree.node_relocate, if_neg hqp.1, if_neg hqp.2,
      h.other q fun r hr => hq r (List.mem_cons_of_mem p hr)]

/-- The loop moves file after file. -/
theorem Progress.foldl (ht : NewTree t) {done ps : List (NamePath × Text)} (h : Progress t t' done)
    (hdone : ∀ p ∈ done, Movable t p) (hps : ∀ p ∈ ps, Movable t p)
    (hnodup : ps.Nodup) (hdisj : ∀ p ∈ ps, p ∉ done)
    (hlit : EveryTurn Build.newStep (fun t line _ => Literal t line) t'
      (ps.map fun p => render (p.1 ++ [p.2]))) :
    Progress t ((ps.map fun p => render (p.1 ++ [p.2])).foldl Build.newStep t')
      (ps.reverse ++ done) := by
  induction ps generalizing t' done with
  | nil => exact h
  | cons p ps ih =>
    obtain ⟨hp, hps⟩ := List.forall_mem_cons.mp hps
    obtain ⟨hpnot, hnodup⟩ := List.nodup_cons.mp hnodup
    have hstep := h.newStep ht hdone hp (hdisj p List.mem_cons_self) hlit.1
    have hrest := ih hstep (List.forall_mem_cons.mpr ⟨hp, hdone⟩) hps hnodup (fun q hq hmem => ?_)
      hlit.2
    · simpa using hrest
    · rcases List.mem_cons.mp hmem with rfl | hmem
      · exact hpnot hq
      · exact hdisj q (List.mem_cons_of_mem p hq) hmem

/-- Under the condition all files are activated. -/
theorem activated_of_newFits (ht : NewTree t) (hfound : found.Perm (newPaths t))
    (h : NewFits found t) : Activated t (activate found t) := by
  obtain ⟨hfinal, hlit⟩ := h
  -- the new files, each with its directory and its final name
  obtain ⟨ps, rfl⟩ : found ∈ Set.range (List.map fun p : NamePath × Text => withNew p.1 p.2) := by
    rw [Set.range_list_map]
    intro q hq
    obtain ⟨d, n, x, rfl, -⟩ := (mem_found ht hfound).mp hq
    exact ⟨(d, n), rfl⟩
  have hmovable : ∀ p ∈ ps, Movable t p := by
    intro p hp
    obtain ⟨d, n, x, heq, hx⟩ := (mem_found ht hfound).mp (List.mem_map_of_mem hp)
    exact ⟨⟨x, hx⟩, hfinal _ _ x hx⟩
  have hnodup : ps.Nodup := (hfound.nodup_iff.mpr (newPaths_nodup ht)).of_map _
  have hlines : newLines (ps.map fun p => withNew p.1 p.2) =
      ps.map fun p => render (p.1 ++ [p.2]) := by
    rw [newLines_of_no_backslash ht hfound, List.map_map]
    · exact List.map_congr_left fun p hp => sedDelete_withNew (hmovable p hp).2.2.2.1
    · intro q hq hmem
      obtain ⟨p, hp, rfl⟩ := List.mem_map.mp hq
      rw [render_withNew] at hmem
      rcases List.mem_append.mp hmem with hmem | hmem
      · exact (hmovable p hp).2.2.2.2 hmem
      · exact absurd hmem (by decide)
  rw [hlines] at hlit
  have hstart : Progress t t [] :=
    ⟨fun p hp => absurd hp List.not_mem_nil, fun p hp => absurd hp List.not_mem_nil, fun q _ => rfl⟩
  have hend := hstart.foldl ht (fun p hp => absurd hp List.not_mem_nil) hmovable hnodup
    (fun p _ => List.not_mem_nil) hlit
  rw [← hlines, ← activate, List.append_nil] at hend
  have hmem : ∀ d n x, t.node (withNew d n) = some (.file x) → (d, n) ∈ ps.reverse := by
    intro d n x hx
    obtain ⟨p, hp, heq⟩ := List.mem_map.mp ((mem_found ht hfound).mpr ⟨d, n, x, rfl, hx⟩)
    obtain ⟨hd, hn⟩ := withNew_inj heq
    rw [List.mem_reverse, ← hd, ← hn]
    exact hp
  refine ⟨fun d n x hx => (hend.target _ (hmem d n x hx)).trans hx, fun d n x hx => ?_,
    fun p x hx hnew hnot => ?_⟩
  · by_cases hin : (d, n) ∈ ps.reverse
    · rw [hend.source _ hin] at hx
      exact absurd hx (by simp)
    · rw [hend.other] at hx
      · exact hin (hmem d n x hx)
      · intro p hp
        have hp' := hmovable p (List.mem_reverse.mp hp)
        refine ⟨(ht.target_ne_withNew (q := (d, n)) hp').symm, fun heq => hin ?_⟩
        obtain ⟨rfl, rfl⟩ := withNew_inj heq
        exact hp
  · rw [hend.other, hx]
    intro p' hp'
    obtain ⟨⟨y, hy⟩, -⟩ := hmovable p' (List.mem_reverse.mp hp')
    exact ⟨fun heq => hnot _ _ y heq hy, hnew _ _⟩

/-- Where the final names are as described and no word is expanded, the new files are activated; and
if no name has a pattern in it, this is needed. -/
theorem activate_iff (ht : NewTree t) (hfound : found.Perm (newPaths t)) :
    (NewFits found t → Activated t (activate found t)) ∧
      (NoPatterns t → Activated t (activate found t) → NewFits found t) :=
  ⟨activated_of_newFits ht hfound, fun hplain => newFits_of_activated ht hfound hplain⟩

/-- What has to be looked at in each entry. -/
theorem newTree_of_entries (hnodup : (t.map Prod.fst).Nodup)
    (hnames : ∀ e ∈ t, ∀ c ∈ e.1, IsName c ∧ NoBlank c) (htop : ∀ e ∈ t, e.1.head? = some unionTop)
    (hparents : ∀ e ∈ t, ∀ a ∈ e.1.inits, a ≠ e.1 → t.isDir a = true)
    (hsuffix : ∀ e ∈ t, ¬ newSuffix ++ newSuffix <:+ e.1.getLastD [] ∧
      (e.2.isDir = true → ¬ newSuffix <:+ e.1.getLastD [])) : NewTree t where
  nodup := hnodup
  names := hnames
  top := htop
  parents := by
    intro e he a b hab hb
    refine hparents e he a ((List.mem_inits a e.1).mpr ⟨b, hab.symm⟩) ?_
    rw [hab]
    simpa using hb
  files := by
    intro d n x hx
    refine (hsuffix _ (NodeTree.mem_of_node hx)).1 ⟨n, ?_⟩
    simp [withNew]
  dirs := by
    intro d n hx
    refine (hsuffix _ (NodeTree.mem_of_node hx)).2 rfl ⟨n, ?_⟩
    simp [withNew]

end

/-! ## A file with two places for the suffix -/

def etcDir : NamePath := [unionTop, "etc".toList]

def firewall : Text := "rc.firewall".toList

def firewallTree : NodeTree ℕ :=
  [([unionTop], .dir), (etcDir, .dir), (etcDir ++ [firewall], .file 1),
    (withNew etcDir firewall, .file 2)]

theorem newTree_firewall : NewTree firewallTree :=
  newTree_of_entries (by decide) (by decide) (by decide) (by decide) (by decide)

theorem forall_firewall {P : NamePath → Text → Prop} (h : P etcDir firewall) :
    ∀ d n x, firewallTree.node (withNew d n) = some (.file x) → P d n := by
  intro d n x hx
  have hmem : withNew d n ∈ newPaths firewallTree :=
    (mem_newPaths newTree_firewall).mpr ⟨d, n, x, rfl, hx⟩
  have hone : newPaths firewallTree = [withNew etcDir firewall] := by decide
  rw [hone, List.mem_singleton] at hmem
  obtain ⟨rfl, rfl⟩ := withNew_inj hmem
  exact h

/-- The new firewall script replaces the old one. -/
theorem activate_firewall : NewFits (newPaths firewallTree) firewallTree ∧
    NoPatterns firewallTree ∧
    Activated firewallTree (activate (newPaths firewallTree) firewallTree) := by
  have hplain : NoPatterns firewallTree :=
    forall_firewall (P := fun d n => ∀ c ∈ render (d ++ [n]), c ∉ ['*', '?', '['])
      (by decide)
  have hlines : newLines (newPaths firewallTree) = [render (etcDir ++ [firewall])] := by decide
  have hfits : NewFits (newPaths firewallTree) firewallTree := by
    refine ⟨forall_firewall (P := fun d n => IsFinal firewallTree d n) (by decide), ?_⟩
    rw [hlines]
    have hlit : Literal firewallTree (render (etcDir ++ [firewall])) := ⟨by decide, by decide⟩
    exact ⟨hlit, trivial⟩
  obtain ⟨henough, hneeded⟩ := activate_iff newTree_firewall (List.Perm.refl _)
  have hactivated := henough hfits
  exact ⟨hneeded hplain hactivated, hplain, hactivated⟩

def newbarTree : NodeTree ℕ :=
  [([unionTop], .dir), (etcDir, .dir), (withNew etcDir "foo.newbar".toList, .file 1)]

/-- `foo.newbar.new`: the first `.new` of the name goes, and `mv` finds no such file. -/
theorem not_activate : ¬ ∀ (t : NodeTree ℕ) (found : List NamePath), NewTree t →
    found.Perm (newPaths t) → Activated t (activate found t) := by
  intro h
  have htree : NewTree newbarTree :=
    newTree_of_entries (by decide) (by decide) (by decide) (by decide) (by decide)
  have hactivated := h newbarTree _ htree (List.Perm.refl _)
  have hsame : (activate (newPaths newbarTree) newbarTree).node
      (withNew etcDir "foo.newbar".toList) = some (.file 1) := by decide
  exact hactivated.gone _ _ 1 hsame

end Backpack.Build
