import Backpack.Dufie.FileTree
import Backpack.Libc

/-!
# The packages of Slackware

`on_mnuSlackPack_activate` makes the list from a directory of package logs. One buffer, `tmp`, holds
what the status bar shows, then the lines of the log, and its first byte says whether the size
was found. A file without any line leaves in it what the status bar has shown.
-/

namespace Backpack.Dufie

open Shell Libc

/-! ## The loop over the logs -/

def sizeKey : Text := "UNCOMPRESSED PACKAGE SIZE:     ".toList

def retrieving : Text := "Retrieving ".toList

def dots : Text := "...".toList

/-- An entry of the directory. A directory can be opened, but no line comes from it. -/
structure Dirent where
  name : Text
  contents : Option Text

/-- `.` and `..` -/
def Dirent.IsDot (pkg : Dirent) : Prop := pkg.name = ['.'] ∨ pkg.name = ['.', '.']

instance (pkg : Dirent) : Decidable pkg.IsDot := inferInstanceAs (Decidable (_ ∨ _))

/-- The lines that `fgets` reads from an entry. -/
def Dirent.reads (pkg : Dirent) : List Text := fgetsAll 2048 (pkg.contents.getD [])

/-- The inner loop: `tmp` after it. -/
def findSize : List Text → Text → Text
  | [], tmp => tmp
  | line :: rest, tmp =>
    let tmp := store line tmp
    if hasKey sizeKey (string tmp) then tmp else findSize rest ('\x00' :: tmp.drop 1)

/-- What is written to `tmp` for the status bar. -/
def announce (name tmp : Text) : Text :=
  if name.length < 2033 then store (retrieving ++ name ++ dots) tmp else tmp

/-- The list, the sum so far, and `tmp`. -/
structure SlackState where
  dir : List DirHelp
  cumul : ℤ
  tmp : Text

/-- A turn of the loop. -/
def readLog (s : SlackState) (pkg : Dirent) : Option SlackState :=
  if pkg.IsDot then some s
  else
    let tmp := findSize pkg.reads (announce pkg.name s.tmp)
    if string tmp = [] then some { s with tmp := tmp }
    else do
      let indiv ← atol (string (tmp.drop 31))
      let cumul ← long (s.cumul + indiv)
      some ⟨add s.dir ('/' :: pkg.name) indiv, cumul, tmp⟩

/-- The list that is built when `tmp` has the bytes `tmp` before. -/
def slackPackages (tmp : Text) (pkgs : List Dirent) : Option (List DirHelp) :=
  (pkgs.foldlM readLog ⟨[], 0, tmp⟩).map fun s => add s.dir ['/'] s.cumul

/-! ## The list that is wanted -/

/-- The first line of a log that gives the size. -/
def sizeLine (t : Text) : Option Text := (fileLines t).find? (hasKey sizeKey)

/-- The entry of the list for a log with such a line. -/
def listed (pkg : Dirent) : Option DirHelp :=
  pkg.contents.bind fun t => (sizeLine t).map fun l => ⟨'/' :: pkg.name, number (l.drop 31)⟩

/-- The sizes of some elements together. -/
def total (ds : List DirHelp) : ℤ := (ds.map (·.size)).sum

theorem total_cons (d : DirHelp) (ds : List DirHelp) : total (d :: ds) = d.size + total ds := by
  simp [total]

/-- The elements and one for the sum. -/
def withRoot (ds : List DirHelp) : List DirHelp := ds ++ [⟨['/'], total ds⟩]

/-- A directory of logs: only `.` and `..` are called so, names are no longer than a file system
allows, and so are lines no longer than the buffer. -/
structure LogDir (pkgs : List Dirent) : Prop where
  dots : ∀ pkg ∈ pkgs, pkg.IsDot → pkg.contents = none
  names : ∀ pkg ∈ pkgs, pkg.name.length ≤ 255
  lines : ∀ pkg ∈ pkgs, ∀ t ∈ pkg.contents, ShortLines 2048 t

/-- Every entry but `.` and `..` is a file that is not empty. -/
def NoneBlank (pkgs : List Dirent) : Prop :=
  ∀ pkg ∈ pkgs, pkg.IsDot ∨ ∃ t, pkg.contents = some t ∧ t ≠ []

/-! ## What a log leaves in the buffer -/

theorem sizeKey_no_zero : ∀ c ∈ sizeKey, c.toLower ≠ '\x00' := by decide

theorem sizeKey_no_newline : ∀ c ∈ sizeKey, c.toLower ≠ '\n' := by decide

theorem findSize_of_find? {lines : List Text} {l : Text} (h : lines.find? (hasKey sizeKey) = some l)
    (tmp : Text) : ∃ buf, findSize lines tmp = store l buf := by
  induction lines generalizing tmp with
  | nil => simp at h
  | cons c lines ih =>
    rw [findSize]
    simp only [string_store, hasKey_string sizeKey_no_zero]
    by_cases hc : hasKey sizeKey c
    · rw [List.find?_cons_of_pos hc] at h
      obtain rfl := Option.some.inj h
      exact ⟨tmp, by rw [if_pos hc]⟩
    · rw [List.find?_cons_of_neg hc] at h
      rw [if_neg hc]
      exact ih h _

/-- Without a line that gives the size the string is empty, if there is any line. -/
theorem findSize_of_none {lines : List Text} (h : lines.find? (hasKey sizeKey) = none)
    (hne : lines ≠ []) (tmp : Text) : string (findSize lines tmp) = [] := by
  induction lines generalizing tmp with
  | nil => exact absurd rfl hne
  | cons c lines ih =>
    have hc : ¬ hasKey sizeKey c := by simpa using List.find?_eq_none.mp h c List.mem_cons_self
    rw [List.find?_cons_of_neg hc] at h
    rw [findSize]
    simp only [string_store, hasKey_string sizeKey_no_zero]
    rw [if_neg hc]
    by_cases hlines : lines = []
    · subst hlines
      rfl
    · exact ih h hlines _

/-- A log that is listed leaves the line with its size in the buffer. -/
theorem findSize_of_listed {pkg : Dirent} {d : DirHelp}
    (hlines : ∀ t ∈ pkg.contents, ShortLines 2048 t)
    (h : listed pkg = some d) (tmp : Text) :
    string (findSize pkg.reads tmp) ≠ [] ∧
      atol (string ((findSize pkg.reads tmp).drop 31)) = long d.size ∧ d.dir = '/' :: pkg.name := by
  obtain ⟨t, ht, hmap⟩ := Option.bind_eq_some_iff.mp h
  obtain ⟨l, hl, rfl⟩ := Option.map_eq_some_iff.mp hmap
  have hkey := List.find?_some hl
  have hlen : 31 ≤ l.length := length_le_of_hasKey hkey
  obtain ⟨c, hfind, hc⟩ : ∃ c, pkg.reads.find? (hasKey sizeKey) = some c ∧
      (c = l ∨ c = l ++ ['\n']) := by
    rw [Dirent.reads, ht, Option.getD_some]
    rw [sizeLine] at hl
    rcases find?_fgetsAll sizeKey_no_newline (hlines t ht) with ⟨hread, hfile⟩ | hread
    · rw [hread, ← hfile, hl]
      exact ⟨_, rfl, Or.inr rfl⟩
    · rw [hread, hl]
      exact ⟨_, rfl, Or.inl rfl⟩
  obtain ⟨buf, hbuf⟩ := findSize_of_find? hfind tmp
  have hckey := List.find?_some hfind
  have hclen : 31 ≤ c.length := length_le_of_hasKey hckey
  have hnumber : number (c.drop 31) = number (l.drop 31) := by
    rcases hc with rfl | rfl
    · rfl
    · rw [List.drop_append_of_le_length hlen, number_append_newline]
  refine ⟨?_, ?_, rfl⟩
  · rw [hbuf, string_store]
    intro hnil
    have hempty : hasKey sizeKey [] = true := by
      rw [← hnil, hasKey_string sizeKey_no_zero]
      exact hckey
    exact absurd hempty (by decide)
  · rw [hbuf, string_drop_store hclen, atol, number_string, hnumber]

/-- A log that has lines and is not listed leaves the buffer empty. -/
theorem findSize_of_not_listed {pkg : Dirent} {t : Text}
    (hlines : ShortLines 2048 t) (ht : pkg.contents = some t) (hne : t ≠ [])
    (h : listed pkg = none) (tmp : Text) : string (findSize pkg.reads tmp) = [] := by
  have hl : sizeLine t = none := by simpa [listed, ht] using h
  refine findSize_of_none ?_ ?_ tmp
  · rw [Dirent.reads, ht, Option.getD_some]
    rw [sizeLine] at hl
    rcases find?_fgetsAll sizeKey_no_newline hlines with ⟨hread, hfile⟩ | hread
    · rw [hread, ← hfile, hl]
      rfl
    · rw [hread, hl]
  · rw [Dirent.reads, ht, Option.getD_some, fgetsAll_cons (by decide) hne]
    exact List.cons_ne_nil _ _

/-- Without a line the buffer holds what the status bar shows. -/
theorem findSize_of_blank {pkg : Dirent} (hname : pkg.name.length ≤ 255)
    (h : pkg.contents = none ∨ pkg.contents = some []) (tmp : Text) :
    string (findSize pkg.reads (announce pkg.name tmp)) ≠ [] := by
  have hreads : pkg.reads = [] := by
    rcases h with h | h <;> rw [Dirent.reads, h] <;> rfl
  have hfirst : ∃ rest, retrieving = 'R' :: rest := ⟨_, rfl⟩
  obtain ⟨rest, hrest⟩ := hfirst
  rw [hreads, findSize, announce, if_pos (by omega), string_store, hrest, List.cons_append,
    List.cons_append, string, List.takeWhile_cons_of_pos (by decide)]
  exact List.cons_ne_nil _ _

/-! ## A turn of the loop -/

section Turn

variable {s : SlackState} {pkg : Dirent}

theorem readLog_of_listed {d : DirHelp} (hdot : pkg.IsDot → pkg.contents = none)
    (hlines : ∀ t ∈ pkg.contents, ShortLines 2048 t)
    (h : listed pkg = some d) : ∃ tmp, readLog s pkg = (long d.size).bind fun _ =>
      (long (s.cumul + d.size)).map fun c => ⟨s.dir ++ [d], c, tmp⟩ := by
  have hnot : ¬ pkg.IsDot := by
    intro hdotpkg
    rw [listed, hdot hdotpkg] at h
    exact absurd h (by simp)
  obtain ⟨hne, hatol, hdir⟩ := findSize_of_listed hlines h (announce pkg.name s.tmp)
  refine ⟨findSize pkg.reads (announce pkg.name s.tmp), ?_⟩
  simp only [readLog, if_neg hnot, if_neg hne, hatol, Option.bind_eq_bind, add, ← hdir]
  rw [long]
  split
  · simp only [Option.bind_some]
    cases long (s.cumul + d.size) <;> rfl
  · rfl

theorem readLog_of_not_listed
    (hlines : ∀ t ∈ pkg.contents, ShortLines 2048 t)
    (hplain : pkg.IsDot ∨ ∃ t, pkg.contents = some t ∧ t ≠ []) (h : listed pkg = none) :
    ∃ tmp, readLog s pkg = some { s with tmp := tmp } := by
  by_cases hdot : pkg.IsDot
  · exact ⟨s.tmp, by rw [readLog, if_pos hdot]⟩
  · obtain ⟨t, ht, hne⟩ := hplain.resolve_left hdot
    have hempty := findSize_of_not_listed (hlines t ht) ht hne h (announce pkg.name s.tmp)
    refine ⟨findSize pkg.reads (announce pkg.name s.tmp), ?_⟩
    simp only [readLog, if_neg hdot, if_pos hempty]

/-- An entry without lines is added. -/
theorem readLog_of_blank {s' : SlackState} (hname : pkg.name.length ≤ 255)
    (hblank : ¬ (pkg.IsDot ∨ ∃ t, pkg.contents = some t ∧ t ≠ [])) (h : readLog s pkg = some s') :
    ∃ n, s'.dir = s.dir ++ [⟨'/' :: pkg.name, n⟩] := by
  obtain ⟨hdot, hcontents⟩ := not_or.mp hblank
  have hnone : pkg.contents = none ∨ pkg.contents = some [] := by
    cases hc : pkg.contents with
    | none => exact Or.inl rfl
    | some t => exact Or.inr (congrArg some (not_not.mp fun hne => hcontents ⟨t, hc, hne⟩))
  have hne := findSize_of_blank hname hnone s.tmp
  simp only [readLog, if_neg hdot, if_neg hne, Option.bind_eq_bind, Option.bind_eq_some_iff] at h
  obtain ⟨n, -, c, -, hs⟩ := h
  exact ⟨n, by rw [← Option.some.inj hs]; rfl⟩

theorem listed_of_blank (hblank : ¬ (pkg.IsDot ∨ ∃ t, pkg.contents = some t ∧ t ≠ [])) :
    listed pkg = none := by
  obtain ⟨-, hcontents⟩ := not_or.mp hblank
  cases hc : pkg.contents with
  | none => rw [listed, hc, Option.bind_none]
  | some t =>
    have hnil : t = [] := not_not.mp fun hne => hcontents ⟨t, hc, hne⟩
    rw [listed, hc, hnil]
    rfl

end Turn

/-! ## The whole loop -/

theorem LogDir.tail {pkg : Dirent} {pkgs : List Dirent} (h : LogDir (pkg :: pkgs)) :
    LogDir pkgs where
  dots := fun p hp => h.dots p (List.mem_cons_of_mem _ hp)
  names := fun p hp => h.names p (List.mem_cons_of_mem _ hp)
  lines := fun p hp => h.lines p (List.mem_cons_of_mem _ hp)

/-- The loop adds an element at least for each log that is listed. -/
theorem length_le_of_foldlM_readLog {pkgs : List Dirent} (h : LogDir pkgs) {s s' : SlackState}
    (hfold : pkgs.foldlM readLog s = some s') :
    s.dir.length + (pkgs.filterMap listed).length ≤ s'.dir.length := by
  induction pkgs generalizing s with
  | nil =>
    obtain rfl : s = s' := Option.some.inj hfold
    simp
  | cons pkg pkgs ih =>
    have hdot := h.dots pkg List.mem_cons_self
    have hlines := h.lines pkg List.mem_cons_self
    rw [List.foldlM_cons, Option.bind_eq_bind, Option.bind_eq_some_iff] at hfold
    obtain ⟨s₁, hstep, hrest⟩ := hfold
    have hle := ih h.tail hrest
    cases hl : listed pkg with
    | some d =>
      obtain ⟨tmp, hread⟩ := @readLog_of_listed s pkg d hdot hlines hl
      rw [hread, Option.bind_eq_some_iff] at hstep
      obtain ⟨_, -, hstep⟩ := hstep
      obtain ⟨c, -, rfl⟩ := Option.map_eq_some_iff.mp hstep
      rw [List.filterMap_cons_some hl, List.length_cons]
      simp only [List.length_append, List.length_singleton] at hle
      omega
    | none =>
      rw [List.filterMap_cons_none hl]
      by_cases hplain : pkg.IsDot ∨ ∃ t, pkg.contents = some t ∧ t ≠ []
      · obtain ⟨tmp, hread⟩ := @readLog_of_not_listed s pkg hlines hplain hl
        rw [hread] at hstep
        obtain rfl := Option.some.inj hstep
        exact hle
      · obtain ⟨n, hn⟩ := readLog_of_blank (h.names pkg List.mem_cons_self) hplain hstep
        rw [hn, List.length_append] at hle
        omega

theorem foldlM_readLog_iff {pkgs : List Dirent} (h : LogDir pkgs) (s : SlackState) :
    (∃ tmp, pkgs.foldlM readLog s = some ⟨s.dir ++ pkgs.filterMap listed,
      s.cumul + total (pkgs.filterMap listed), tmp⟩) ↔
      NoneBlank pkgs ∧ SumsFit s.cumul ((pkgs.filterMap listed).map (·.size)) := by
  induction pkgs generalizing s with
  | nil =>
    refine iff_of_true ⟨s.tmp, ?_⟩ ⟨fun pkg hpkg => absurd hpkg List.not_mem_nil, sumsFit_nil⟩
    rw [List.filterMap_nil, List.append_nil, total]
    simp
  | cons pkg pkgs ih =>
    have hdot := h.dots pkg List.mem_cons_self
    have hlines := h.lines pkg List.mem_cons_self
    have hblank : NoneBlank (pkg :: pkgs) ↔
        (pkg.IsDot ∨ ∃ t, pkg.contents = some t ∧ t ≠ []) ∧ NoneBlank pkgs :=
      List.forall_mem_cons
    rw [hblank, List.foldlM_cons, Option.bind_eq_bind]
    cases hl : listed pkg with
    | some d =>
      have hplain : pkg.IsDot ∨ ∃ t, pkg.contents = some t ∧ t ≠ [] := by
        by_contra hnot
        rw [listed_of_blank hnot] at hl
        exact absurd hl (by simp)
      obtain ⟨tmp, hread⟩ := @readLog_of_listed s pkg d hdot hlines hl
      have hnext := ih h.tail ⟨s.dir ++ [d], s.cumul + d.size, tmp⟩
      simp only [List.append_assoc, List.singleton_append, Int.add_assoc] at hnext
      rw [List.filterMap_cons_some hl, List.map_cons, sumsFit_cons, hread]
      rw [total_cons]
      simp only [hplain, true_and, long]
      by_cases hfits : IsLong d.size ∧ IsLong (s.cumul + d.size)
      · rw [if_pos hfits.1, if_pos hfits.2, Option.bind_some, Option.map_some, Option.bind_some,
          hnext]
        simp [hfits]
      · have hnone : ((if IsLong d.size then some d.size else none).bind fun _ =>
            (if IsLong (s.cumul + d.size) then some (s.cumul + d.size) else none).map fun c =>
              (⟨s.dir ++ [d], c, tmp⟩ : SlackState)) = none := by
          by_cases hsize : IsLong d.size
          · have hsum : ¬ IsLong (s.cumul + d.size) := fun hsum => hfits ⟨hsize, hsum⟩
            rw [if_pos hsize, if_neg hsum]
            rfl
          · rw [if_neg hsize]
            rfl
        rw [hnone]
        simp [hfits]
    | none =>
      rw [List.filterMap_cons_none hl]
      by_cases hplain : pkg.IsDot ∨ ∃ t, pkg.contents = some t ∧ t ≠ []
      · obtain ⟨tmp, hread⟩ := @readLog_of_not_listed s pkg hlines hplain hl
        rw [hread, Option.bind_some]
        simp only [hplain, true_and]
        exact ih h.tail { s with tmp := tmp }
      · refine iff_of_false ?_ fun hall => hplain hall.1.1
        -- the list has become too long
        rintro ⟨tmp, hfold⟩
        obtain ⟨s₁, hstep, hrest⟩ := Option.bind_eq_some_iff.mp hfold
        obtain ⟨n, hn⟩ := readLog_of_blank (h.names pkg List.mem_cons_self) hplain hstep
        have hle := length_le_of_foldlM_readLog h.tail hrest
        rw [hn] at hle
        simp only [List.length_append, List.length_singleton] at hle
        omega

/-- The list has the packages and their sum exactly if no entry of the directory is without
lines and the sizes fit. -/
theorem slackPackages_eq_iff {pkgs : List Dirent} (h : LogDir pkgs) (tmp : Text) :
    slackPackages tmp pkgs = some (withRoot (pkgs.filterMap listed)) ↔
      NoneBlank pkgs ∧ SumsFit 0 ((pkgs.filterMap listed).map (·.size)) := by
  have hiff := foldlM_readLog_iff h ⟨[], 0, tmp⟩
  simp only [List.nil_append, Int.zero_add] at hiff
  rw [← hiff, slackPackages, Option.map_eq_some_iff]
  constructor
  · rintro ⟨⟨dir, cumul, tmp'⟩, hfold, hlist⟩
    obtain ⟨hdir, hroot⟩ := List.append_singleton_inj.mp hlist
    obtain ⟨-, rfl⟩ := DirHelp.mk.inj hroot
    rw [show dir = pkgs.filterMap listed from hdir] at hfold
    exact ⟨tmp', hfold⟩
  · rintro ⟨tmp', hfold⟩
    exact ⟨_, hfold, rfl⟩

def twoLogs : List Dirent :=
  [⟨['.'], none⟩, ⟨['a'], some "a\nUncompressed package size:     12 K\n".toList⟩,
    ⟨['b'], some ['x']⟩]

theorem slackPackages_two :
    slackPackages [] twoLogs = some (withRoot (twoLogs.filterMap listed)) := by
  have hdir : LogDir twoLogs :=
    { dots := by decide
      names := by decide
      lines := by decide }
  have hblank : NoneBlank twoLogs := by
    refine List.forall_mem_cons.mpr ⟨Or.inl (by decide), List.forall_mem_cons.mpr ⟨?_, ?_⟩⟩
    · exact Or.inr ⟨_, rfl, by decide⟩
    · exact List.forall_mem_singleton.mpr (Or.inr ⟨_, rfl, by decide⟩)
  have hlisted : twoLogs.filterMap listed = [⟨['/', 'a'], 12⟩] := by decide
  have hfit : SumsFit 0 ((twoLogs.filterMap listed).map (·.size)) := by
    rw [hlisted]
    exact sumsFit_cons.mpr ⟨by decide, sumsFit_nil⟩
  exact (slackPackages_eq_iff hdir []).mpr ⟨hblank, hfit⟩

/-- A directory among the logs is listed. -/
theorem not_slackPackages : ¬ ∀ (tmp : Text) (pkgs : List Dirent), LogDir pkgs →
    slackPackages tmp pkgs = some (withRoot (pkgs.filterMap listed)) := by
  intro hall
  have hdir : LogDir [⟨['d'], none⟩] :=
    { dots := by decide
      names := by decide
      lines := by decide }
  have hlist : slackPackages [] [⟨['d'], none⟩] = some [⟨['/', 'd'], 0⟩, ⟨['/'], 0⟩] := by decide
  rw [hall [] _ hdir] at hlist
  exact absurd hlist (by decide)

end Backpack.Dufie
