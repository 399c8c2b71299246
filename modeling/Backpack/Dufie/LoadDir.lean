import Backpack.Dufie.Listing
import Backpack.Libc

/-!
# Loading a directory

`load_dir` reads the output of `du` through a buffer of 2048 bytes, splits each line into size and
path, and gives the list to `create_file_tree`. What the status bar shows is made in a buffer of the
same size.
-/

namespace Backpack.Dufie

open Shell Libc

/-! ## The output of `du` -/

/-- A line of `du`. -/
def record (d : DirHelp) : Text := Nat.toDigits 10 d.size.toNat ++ '\t' :: d.dir

/-- What `du` prints, a line for each directory. -/
def duOutput (ds : List DirHelp) : Text := unlines (ds.map record)

/-! ## The loop of `load_dir` -/

def workingOn : Text := "Working on ".toList

def loaded : Text := "Loaded ".toList

/-- What `tmp` and `ptr` point to after the newline and the tab are replaced by zeros. Without a tab
`ptr` is `NULL`, which `add` cannot take. -/
def splitRecord (tmp : Text) : Option (Text × Text) :=
  let line := tmp.takeWhile (· ≠ '\n')
  if '\t' ∈ line then
    some (line.takeWhile (· ≠ '\t'), (line.dropWhile (· ≠ '\t')).drop 1)
  else none

/-- What `bar` holds after a turn of the loop. It is written as long as it is short, and it has
2048 bytes. -/
def statusLine (bar ptr : Text) : Option Text :=
  if bar.length < 2036 then
    if (workingOn ++ ptr).length + 1 ≤ 2048 then some (workingOn ++ ptr) else none
  else some bar

/-- A turn of the loop: `bar` and the list. -/
def readRecord (s : Text × List DirHelp) (tmp : Text) : Option (Text × List DirHelp) := do
  let (size, ptr) ← splitRecord tmp
  let bar ← statusLine s.1 ptr
  let n ← atol size
  some (bar, add s.2 ptr n)

/-- The list that the loop makes of the output of `du`. -/
def readDu (out : Text) : Option (List DirHelp) :=
  ((fgetsAll 2048 out).foldlM readRecord ([], [])).map Prod.snd

/-- `load_dir(path, data)`, where `du` prints `out`. -/
def loadDir (fuel : ℕ) (out path : Text) : Option (TreeStore × Option ℕ) := do
  let dir ← readDu out
  let r ← fileTree fuel dir path []
  -- `sprintf(tmp, "Loaded %s", path)`
  if (loaded ++ path).length + 1 ≤ 2048 then some r else none

/-! ## Reading the records -/

theorem length_workingOn : workingOn.length = 11 := rfl

theorem length_loaded : loaded.length = 7 := rfl

/-- A record of du gives its size and its path. -/
theorem splitRecord_eq {s p t : Text} (hs : '\t' ∉ s) (hsn : '\n' ∉ s) (hp : '\n' ∉ p)
    (ht : t = [] ∨ t = ['\n']) : splitRecord (s ++ '\t' :: p ++ t) = some (s, p) := by
  have hline : (s ++ '\t' :: p ++ t).takeWhile (· ≠ '\n') = s ++ '\t' :: p := by
    have hnot : '\n' ∉ s ++ '\t' :: p := by simp [hsn, hp]
    rcases ht with rfl | rfl
    · rw [List.append_nil, List.takeWhile_eq_self_iff]
      intro c hc
      exact decide_eq_true fun heq => hnot (heq ▸ hc)
    · exact (split_at_first hnot []).1
  rw [splitRecord]
  simp only [hline, (split_at_first hs p).1, (split_at_first hs p).2]
  simp

theorem splitRecord_some {tmp s p : Text} (h : splitRecord tmp = some (s, p)) :
    '\t' ∉ s ∧ '\n' ∉ p ∧ s ++ '\t' :: p <+: tmp := by
  rw [splitRecord] at h
  split at h
  case isFalse => exact absurd h (by simp)
  case isTrue htab =>
    obtain ⟨s', p', hline, hs'⟩ := List.eq_append_cons_of_mem htab
    simp only [hline, (split_at_first hs' p').1, (split_at_first hs' p').2] at h
    obtain ⟨rfl, rfl⟩ := Prod.mk.inj (Option.some.inj h)
    refine ⟨hs', ?_, ?_⟩
    · intro hmem
      have hin : '\n' ∈ tmp.takeWhile (· ≠ '\n') := by
        rw [hline]
        simpa using Or.inr hmem
      simpa using List.mem_takeWhile_imp hin
    · rw [List.drop_one, List.tail_cons, ← hline]
      exact List.takeWhile_prefix _

section Loop

variable {bar : Text} {main : List DirHelp} {d : DirHelp}

theorem tab_not_mem_toDigits {n : ℕ} {c : Char} (hc : c.isDigit = false) :
    c ∉ Nat.toDigits 10 n := by
  intro hmem
  rw [Nat.isDigit_of_mem_toDigits (by decide) (by decide) hmem] at hc
  exact Bool.noConfusion hc

theorem newline_not_mem_record (hd : '\n' ∉ d.dir) : '\n' ∉ record d := by
  simp [record, hd, tab_not_mem_toDigits (c := '\n') (by decide)]

/-- The line of a directory gives back the directory, if the status bar and the size fit. -/
theorem readRecord_record (hd : '\n' ∉ d.dir) (hsize : 0 ≤ d.size) :
    readRecord (bar, main) (record d ++ ['\n']) =
      (statusLine bar d.dir).bind fun b => (long d.size).map fun _ => (b, main ++ [d]) := by
  have hsplit : splitRecord (record d ++ ['\n']) = some (Nat.toDigits 10 d.size.toNat, d.dir) :=
    splitRecord_eq (tab_not_mem_toDigits (by decide)) (tab_not_mem_toDigits (by decide)) hd
      (Or.inr rfl)
  have hnumber : atol (Nat.toDigits 10 d.size.toNat) = long d.size := by
    rw [atol, number_toDigits, Int.toNat_of_nonneg hsize]
  simp only [readRecord, hsplit, hnumber, Option.bind_eq_bind, Option.bind_some, add]
  refine congrArg _ (funext fun b => ?_)
  by_cases hlong : IsLong d.size
  · simp [long, hlong]
  · simp [long, hlong]

/-- A turn of the loop that goes through adds what it has split off. -/
theorem readRecord_some {tmp bar' : Text} {main' : List DirHelp}
    (h : readRecord (bar, main) tmp = some (bar', main')) :
    ∃ s p n, splitRecord tmp = some (s, p) ∧ main' = main ++ [⟨p, n⟩] := by
  simp only [readRecord, Option.bind_eq_bind, Option.bind_eq_some_iff] at h
  obtain ⟨⟨s, p⟩, hsplit, b, -, n, -, hout⟩ := h
  refine ⟨s, p, n, hsplit, ?_⟩
  exact (Prod.mk.inj (Option.some.inj hout)).2.symm

theorem prefix_of_foldlM_readRecord {cs : List Text} {r : Text × List DirHelp}
    (h : cs.foldlM readRecord (bar, main) = some r) : main <+: r.2 := by
  induction cs generalizing bar main with
  | nil =>
    obtain rfl : (bar, main) = r := Option.some.inj h
    exact List.prefix_rfl
  | cons c cs ih =>
    rw [List.foldlM_cons, Option.bind_eq_bind, Option.bind_eq_some_iff] at h
    obtain ⟨⟨b, m⟩, hstep, hrest⟩ := h
    obtain ⟨_, _, _, -, rfl⟩ := readRecord_some hstep
    exact (List.prefix_append _ _).trans (ih hrest)

/-- Where the first path comes that is too long for the status bar to be written again, it still
fits in its buffer. -/
def StatusFits (ds : List DirHelp) : Prop :=
  ∀ pre d post, ds = pre ++ d :: post → (∀ e ∈ pre, e.dir.length < 2025) → d.dir.length ≤ 2036

theorem statusFits_nil : StatusFits [] := by
  intro pre d post h
  simp at h

theorem statusFits_cons {ds : List DirHelp} : StatusFits (d :: ds) ↔
    d.dir.length ≤ 2036 ∧ (d.dir.length < 2025 → StatusFits ds) := by
  have hcons := @forall_split_cons _ d ds
    (fun pre e => (∀ x ∈ pre, x.dir.length < 2025) → e.dir.length ≤ 2036)
  refine hcons.trans (and_congr (by simp) ?_)
  simp only [List.forall_mem_cons, StatusFits]
  exact ⟨fun h hd pre e post heq hpre => h pre e post heq ⟨hd, hpre⟩,
    fun h pre e post heq hpre => h hpre.1 pre e post heq hpre.2⟩

/-- What `du` prints for a directory can be read. -/
def Readable (d : DirHelp) : Prop :=
  '\n' ∉ d.dir ∧ (record d).length + 1 < 2048 ∧ IsLong d.size

instance (d : DirHelp) : Decidable (Readable d) := inferInstanceAs (Decidable (_ ∧ _ ∧ _))

/-- The status line is written when the path leaves room for it. -/
theorem statusLine_eq_some_iff {ptr b : Text} : statusLine bar ptr = some b ↔
    (bar.length < 2036 → ptr.length ≤ 2036) ∧
      b = if bar.length < 2036 then workingOn ++ ptr else bar := by
  unfold statusLine
  split
  case isTrue h =>
    rw [List.length_append, length_workingOn]
    split
    case isTrue hlen =>
      have hshort : ptr.length ≤ 2036 := by omega
      simp [h, hshort, eq_comm]
    case isFalse hlen =>
      have hlong : ¬ ptr.length ≤ 2036 := by omega
      simp [h, hlong]
  case isFalse h => simp [h, eq_comm]

/-- The first thing that is read of the output for `d`, if it gives back the path. -/
theorem length_record_le {rest : List DirHelp} {s : Text}
    (h : splitRecord (fgets 2048 (duOutput (d :: rest))).1 = some (s, d.dir)) :
    '\n' ∉ d.dir ∧ (record d).length ≤ 2047 := by
  obtain ⟨hs, hd, hprefix⟩ := splitRecord_some h
  refine ⟨hd, ?_⟩
  by_contra hlong
  have hout : duOutput (d :: rest) = record d ++ '\n' :: duOutput rest := by
    simp [duOutput, unlines]
  rw [hout, fgets, takeLine_cut (newline_not_mem_record hd) (by omega)] at hprefix
  have hfirst : (s ++ '\t' :: d.dir).length ≤ 2047 := by
    have hle := hprefix.length_le
    rw [List.length_take] at hle
    omega
  -- both begin with the same size, so the path cannot be all there
  obtain ⟨u, hu⟩ := hprefix.trans (List.take_prefix _ _)
  have hsize : s = Nat.toDigits 10 d.size.toNat := by
    have htake := congrArg (List.takeWhile fun c => c ≠ '\t') hu
    rw [record, (split_at_first (tab_not_mem_toDigits (by decide)) d.dir).1, List.append_assoc,
      List.cons_append, (split_at_first hs _).1] at htake
    exact htake
  have hlen : (record d).length = (s ++ '\t' :: d.dir).length := by rw [record, hsize]
  omega

/-- A line that just fits without its newline leaves the newline for the next turn. -/
theorem foldlM_readRecord_newline (rest : Text) :
    (fgetsAll 2048 ('\n' :: rest)).foldlM readRecord (bar, main) = none := by
  have hread := @fgetsAll_line 2048 [] List.not_mem_nil (by decide) rest
  rw [List.nil_append] at hread
  rw [hread, List.foldlM_cons]
  rfl

/-- The turn for the line of `d` and what follows it. -/
theorem foldlM_readRecord_cons {ds : List DirHelp} {r : Text × List DirHelp}
    (hnl : '\n' ∉ d.dir) (hlen : (record d).length + 1 < 2048) (hd : 0 ≤ d.size) :
    (fgetsAll 2048 (duOutput (d :: ds))).foldlM readRecord (bar, main) = some r ↔
      IsLong d.size ∧ (bar.length < 2036 → d.dir.length ≤ 2036) ∧
        (fgetsAll 2048 (duOutput ds)).foldlM readRecord
          (if bar.length < 2036 then workingOn ++ d.dir else bar, main ++ [d]) = some r := by
  have hout : duOutput (d :: ds) = record d ++ '\n' :: duOutput ds := by
    simp [duOutput, unlines]
  rw [hout, fgetsAll_line (newline_not_mem_record hnl) hlen, List.foldlM_cons,
    readRecord_record hnl hd]
  simp only [Option.bind_eq_bind, Option.bind_eq_some_iff, Option.map_eq_some_iff,
    statusLine_eq_some_iff, long_eq_some_iff]
  constructor
  · rintro ⟨_, ⟨b, ⟨hstatus, rfl⟩, m, ⟨hlong, -⟩, rfl⟩, hrest⟩
    exact ⟨hlong, hstatus, hrest⟩
  · rintro ⟨hlong, hstatus, hrest⟩
    exact ⟨_, ⟨_, ⟨hstatus, rfl⟩, d.size, ⟨hlong, rfl⟩, rfl⟩, hrest⟩

/-- A line that is read whole has no newline in it and fits into the buffer. -/
theorem line_of_foldlM {d : DirHelp} {ds : List DirHelp} {b : Text}
    (h : (fgetsAll 2048 (duOutput (d :: ds))).foldlM readRecord (bar, main) =
      some (b, main ++ d :: ds)) : '\n' ∉ d.dir ∧ (record d).length + 1 < 2048 := by
  have hout : duOutput (d :: ds) = record d ++ '\n' :: duOutput ds := by
    simp [duOutput, unlines]
  rw [fgetsAll_cons (by omega) (by simp [hout]), List.foldlM_cons, Option.bind_eq_bind,
    Option.bind_eq_some_iff] at h
  obtain ⟨⟨b', main'⟩, hstep, hrest⟩ := h
  -- what the first turn adds is the head of what is there in the end
  obtain ⟨s, p, n, hsplit, rfl⟩ := readRecord_some hstep
  obtain ⟨t, ht⟩ := prefix_of_foldlM_readRecord hrest
  have hhead : (⟨p, n⟩ : DirHelp) = d := by
    rw [List.append_assoc] at ht
    exact (List.cons.inj (List.append_cancel_left ht)).1
  obtain ⟨hnl, hle⟩ := length_record_le (d := d) (by rw [hsplit, ← hhead])
  refine ⟨hnl, ?_⟩
  by_contra hlong
  have hdrop : (record d).drop (2048 - 1) = [] := List.drop_eq_nil_of_le (by omega)
  rw [hout, fgets, takeLine_cut (newline_not_mem_record hnl) (by omega), hdrop,
    List.nil_append, foldlM_readRecord_newline] at hrest
  exact absurd hrest (by simp)

/-- The first directory and the others share the status bar. -/
theorem statusFits_bar_iff (d : DirHelp) (ds : List DirHelp) :
    (bar.length < 2036 → StatusFits (d :: ds)) ↔
      (bar.length < 2036 → d.dir.length ≤ 2036) ∧
        ((if bar.length < 2036 then workingOn ++ d.dir else bar).length < 2036 →
          StatusFits ds) := by
  by_cases hshort : bar.length < 2036
  · have hlt : 11 + d.dir.length < 2036 ↔ d.dir.length < 2025 := by omega
    rw [if_pos hshort, List.length_append, length_workingOn, statusFits_cons]
    simp [hshort, hlt]
  · simp [hshort]

/-- The loop gives back the directories exactly if all lines can be read and the status bar
fits. -/
theorem foldlM_readRecord_iff {ds : List DirHelp} (hsize : ∀ d ∈ ds, 0 ≤ d.size) :
    (∃ b, (fgetsAll 2048 (duOutput ds)).foldlM readRecord (bar, main) = some (b, main ++ ds)) ↔
      (∀ d ∈ ds, Readable d) ∧ (bar.length < 2036 → StatusFits ds) := by
  induction ds generalizing bar main with
  | nil =>
    rw [List.append_nil]
    refine iff_of_true ⟨bar, rfl⟩ ⟨by simp, fun _ => statusFits_nil⟩
  | cons d ds ih =>
    have hd := hsize d List.mem_cons_self
    have hassoc : main ++ d :: ds = (main ++ [d]) ++ ds := by simp
    have hnext := @ih (if bar.length < 2036 then workingOn ++ d.dir else bar) (main ++ [d])
      fun e he => hsize e (List.mem_cons_of_mem _ he)
    rw [statusFits_bar_iff, List.forall_mem_cons]
    constructor
    · rintro ⟨b, hb⟩
      obtain ⟨hnl, hlen⟩ := line_of_foldlM hb
      obtain ⟨hlong, hstatus, hrest⟩ := (foldlM_readRecord_cons hnl hlen hd).mp hb
      rw [hassoc] at hrest
      obtain ⟨hall, hfits⟩ := hnext.mp ⟨b, hrest⟩
      exact ⟨⟨⟨hnl, hlen, hlong⟩, hall⟩, hstatus, hfits⟩
    · rintro ⟨⟨⟨hnl, hlen, hlong⟩, hall⟩, hstatus, hfits⟩
      obtain ⟨b, hb⟩ := hnext.mpr ⟨hall, hfits⟩
      rw [← hassoc] at hb
      exact ⟨b, (foldlM_readRecord_cons hnl hlen hd).mpr ⟨hlong, hstatus, hb⟩⟩

/-- What `load_dir` makes of the output of `du` is the list of its directories. -/
theorem readDu_iff {ds : List DirHelp} (hsize : ∀ d ∈ ds, 0 ≤ d.size) :
    readDu (duOutput ds) = some ds ↔ (∀ d ∈ ds, Readable d) ∧ StatusFits ds := by
  have hiff := @foldlM_readRecord_iff [] [] ds hsize
  rw [List.nil_append] at hiff
  rw [readDu, Option.map_eq_some_iff]
  refine Iff.trans ⟨?_, ?_⟩ (hiff.trans (and_congr_right fun _ => by simp))
  · rintro ⟨⟨b, l⟩, hfold, rfl⟩
    exact ⟨b, hfold⟩
  · rintro ⟨b, hfold⟩
    exact ⟨(b, ds), hfold, rfl⟩

end Loop

/-! ## The tree -/

section Tree

variable {root : Text} {ds : List DirHelp}

theorem Builds.unique {dir : List DirHelp} {path : Text} {parent : Option ℕ}
    {sub : List DirHelp} {store : TreeStore} {child : Option ℕ} {r s : TreeStore × Option ℕ}
    (hr : Builds dir path parent sub store child r) (hs : Builds dir path parent sub store child s) :
    r = s := by
  obtain ⟨n, hn⟩ := hr
  obtain ⟨m, hm⟩ := hs
  have hn' := treeLoop_mono (Nat.le_max_left n m) hn
  rw [treeLoop_mono (Nat.le_max_right n m) hm] at hn'
  exact (Option.some.inj hn').symm

/-- Below a path that ends in a slash no directory has another slash after the path. -/
theorem Listing.not_found_of_slash (h : Listing root ds) (hlast : root.getLast? = some '/')
    (hroot : root ≠ ['/']) {d : DirHelp} (hd : d ∈ ds) (hne : d.dir ≠ root) :
    ¬ Found root d.dir := by
  have hbelow : ∀ e ∈ ds, e.dir = root ∨ ∃ c t, c ≠ '/' ∧ e.dir = root ++ c :: t := by
    intro e he
    induction hk : e.dir.length using Nat.strongRecOn generalizing e with
    | ind k ih =>
      by_cases heq : e.dir = root
      · exact Or.inl heq
      · obtain ⟨a, ha, hsub⟩ := h.parents e he heq
        have hlt := hsub.length_lt
        obtain ⟨name, hname, hslash, hdir⟩ := hsub
        refine Or.inr ?_
        rcases ih a.dir.length (by omega) a ha rfl with har | ⟨c, t, hc, har⟩
        · rw [har, join, if_pos hlast] at hdir
          cases name with
          | nil => exact absurd rfl hname
          | cons c t => exact ⟨c, t, fun heq => hslash (by simp [heq]), hdir⟩
        · rw [har, join] at hdir
          split at hdir
          · exact ⟨c, t ++ name, hc, by rw [hdir]; simp⟩
          · exact ⟨c, t ++ '/' :: name, hc, by rw [hdir]; simp⟩
  obtain ⟨c, t, hc, hdir⟩ := (hbelow d hd).resolve_left hne
  rw [hdir, found_append]
  rintro (⟨hhead, -⟩ | ⟨hone, -⟩)
  · exact hc (Option.some.inj hhead)
  · obtain ⟨x, rfl⟩ := List.length_eq_one_iff.mp hone
    have hx : x = '/' := by simpa using hlast
    exact hroot (by rw [hx])

/-- Below such a path nothing is shown. -/
theorem Listing.tree_of_slash (h : Listing root ds) (hlast : root.getLast? = some '/')
    (hroot : root ≠ ['/']) (store : TreeStore) : ∃ s, ds.getLast? = some ⟨root, s⟩ ∧
      Builds ds root none ds store none
        (store ++ [⟨none, s, label root s⟩], some store.length) := by
  obtain ⟨s, hs⟩ := h.last
  obtain ⟨pre, hds⟩ := List.getLast?_eq_some_iff.mp hs
  have hskip : ∀ {sub : List DirHelp}, sub <:+ ds → ∀ p rows child,
      Builds ds root (some p) sub rows child (rows, child) := by
    intro sub
    induction sub with
    | nil => exact fun _ _ _ _ => Builds.nil
    | cons e rest ih =>
      intro hsub p rows child
      by_cases hrest : rest = []
      · subst hrest
        exact Builds.last
      · have hmem := mem_dropLast_of_suffix hsub hrest
        have hnot := h.not_found_of_slash hlast hroot (List.dropLast_subset ds hmem)
          (h.ne_root hmem)
        exact Builds.skip hrest (turn_of_not_found hnot)
          (ih ((List.suffix_cons e rest).trans hsub) p rows child)
  refine ⟨s, hs, ?_⟩
  have hsearch := @builds_search ds root pre [] ⟨root, s⟩ store none _ rfl
    (fun d hd => h.ne_root (by rw [hds, List.dropLast_concat]; exact hd))
    (hskip List.suffix_rfl _ _ none)
  rw [← hds] at hsearch
  exact hsearch

/-- A tree with all directories is made of a listing exactly if its path does not end in a slash,
is `/`, or has no directories in it. -/
theorem Listing.shows_iff (h : Listing root ds) (hne : root ≠ []) (store : TreeStore) :
    (∃ r, Builds ds root none ds store none r ∧ Shows root ds (shownName root) store r) ↔
      root = ['/'] ∨ root.getLast? ≠ some '/' ∨ ds.length = 1 := by
  by_cases hproper : root = ['/'] ∨ root.getLast? ≠ some '/'
  · refine iff_of_true (h.exists_tree ⟨hne, hproper⟩ store) ?_
    exact hproper.imp_right Or.inl
  · obtain ⟨hroot, hlast⟩ := not_or.mp hproper
    obtain ⟨s, hs, hbuilds⟩ := h.tree_of_slash (not_not.mp hlast) hroot store
    simp only [hroot, hlast, false_or]
    constructor
    · rintro ⟨r, hr, owners, rows, heq, hperm, hrows, -⟩
      have hone := congrArg List.length (heq.symm.trans (congrArg Prod.fst (hr.unique hbuilds)))
      simp only [List.length_append, List.length_singleton] at hone
      have hlen := hrows.length_eq
      rw [← hperm.length_eq]
      omega
    · intro hone
      obtain ⟨d, rfl⟩ := List.length_eq_one_iff.mp hone
      obtain rfl : d = ⟨root, s⟩ := Option.some.inj hs
      refine ⟨_, hbuilds, [⟨root, s⟩], [⟨none, s, label root s⟩], rfl, List.Perm.refl _,
        List.Forall₂.cons ⟨rfl, by rw [if_pos rfl], by rw [if_pos rfl]⟩ List.Forall₂.nil,
        fun _ _ => rfl, 0, ⟨root, s⟩, rfl, rfl, rfl⟩

end Tree

/-! ## The whole of `load_dir` -/

/-- What `du` lists for a path that is not empty. -/
structure DuListing (root : Text) (ds : List DirHelp) : Prop extends Listing root ds where
  named : root ≠ []
  nonneg : ∀ d ∈ ds, 0 ≤ d.size

/-- `load_dir` finds all directories again and shows them, within its buffers. -/
def LoadsAll (root : Text) (ds : List DirHelp) : Prop :=
  readDu (duOutput ds) = some ds ∧
    ∃ fuel r, loadDir fuel (duOutput ds) root = some r ∧ Shows root ds (shownName root) [] r

/-- No newline in a path, lines and paths that fit in the buffers, sizes that can be written, and
no slash at the end of the path where there are directories in it. -/
structure Loadable (root : Text) (ds : List DirHelp) : Prop where
  readable : ∀ d ∈ ds, Readable d
  status : StatusFits ds
  path : root.length ≤ 2040
  sizes : ∀ d ∈ ds, Fits d.size
  slash : root = ['/'] ∨ root.getLast? ≠ some '/' ∨ ds.length = 1

theorem loadDir_eq_some_iff {root out : Text} {ds : List DirHelp} {fuel : ℕ}
    {r : TreeStore × Option ℕ} (hread : readDu out = some ds) :
    loadDir fuel out root = some r ↔
      fileTree fuel ds root [] = some r ∧ root.length ≤ 2040 := by
  have hpath : (loaded ++ root).length + 1 ≤ 2048 ↔ root.length ≤ 2040 := by
    rw [List.length_append, length_loaded]
    omega
  simp only [loadDir, hread, hpath, Option.bind_eq_bind, Option.bind_some, Option.bind_eq_some_iff]
  constructor
  · rintro ⟨s, hs, hif⟩
    split at hif
    case isTrue hlen =>
      obtain rfl := Option.some.inj hif
      exact ⟨hs, hlen⟩
    case isFalse => exact absurd hif (by simp)
  · rintro ⟨hs, hlen⟩
    exact ⟨r, hs, if_pos hlen⟩

theorem LoadsAll.loadable {root : Text} {ds : List DirHelp} (hall : LoadsAll root ds)
    (h : DuListing root ds) : Loadable root ds := by
  obtain ⟨hread, fuel, r, hr, hshows⟩ := hall
  obtain ⟨htree, hlen⟩ := (loadDir_eq_some_iff hread).mp hr
  obtain ⟨hr, hfits⟩ := hshows.fileTree_iff.mp htree
  obtain ⟨hreadable, hstatus⟩ := (readDu_iff h.nonneg).mp hread
  exact ⟨hreadable, hstatus, hlen, hfits,
    (h.shows_iff h.named []).mp ⟨r, ⟨fuel, hr⟩, hshows⟩⟩

theorem loadsAll_iff {root : Text} {ds : List DirHelp} (h : DuListing root ds) :
    LoadsAll root ds ↔ Loadable root ds := by
  constructor
  · exact fun hall => hall.loadable h
  · rintro ⟨hreadable, hstatus, hlen, hfits, hslash⟩
    have hread := (readDu_iff h.nonneg).mpr ⟨hreadable, hstatus⟩
    obtain ⟨r, ⟨fuel, hr⟩, hshows⟩ := (h.shows_iff h.named []).mpr hslash
    have htree := hshows.fileTree_iff.mpr ⟨hr, hfits⟩
    exact ⟨hread, fuel, r, (loadDir_eq_some_iff hread).mpr ⟨htree, hlen⟩, hshows⟩

theorem duListing_of_two {root name : Text} {s t : ℤ} (hroot : root ≠ []) (hne : name ≠ [])
    (hname : '/' ∉ name) (hs : 0 ≤ s) (ht : 0 ≤ t) :
    DuListing root [⟨join root name, s⟩, ⟨root, t⟩] where
  toListing := listing_of_two root s t hne hname
  named := hroot
  nonneg := by simp [hs, ht]

theorem loadsAll_of_two :
    LoadsAll "home".toList [⟨"home/user".toList, 1500⟩, ⟨"home".toList, 2500⟩] :=
  (loadsAll_iff (@duListing_of_two "home".toList "user".toList 1500 2500 (by decide) (by decide)
    (by decide) (by decide) (by decide))).mpr
    { readable := by decide
      status := statusFits_cons.mpr ⟨by decide, fun _ => statusFits_cons.mpr
        ⟨by decide, fun _ => statusFits_nil⟩⟩
      path := by decide
      sizes := by decide
      slash := by decide }

/-- A path with a slash at its end hides the directories in it. -/
theorem not_loadsAll :
    ¬ ∀ (root : Text) (ds : List DirHelp), DuListing root ds → LoadsAll root ds := by
  intro hall
  have hlisting : DuListing ['d', '/'] [⟨['d', '/', 's'], 4⟩, ⟨['d', '/'], 8⟩] :=
    @duListing_of_two ['d', '/'] ['s'] 4 8 (by decide) (by decide) (by decide) (by decide)
      (by decide)
  exact absurd ((hall _ _ hlisting).loadable hlisting).slash (by decide)

end Backpack.Dufie
