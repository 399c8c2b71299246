import Backpack.Rc.Mount
import Backpack.Shell.RegexTheorems

/-!
# When the partitions are mounted independently

`NTFSOPTS` survives from one partition to the next, and `grep` looks for the device anywhere in
`/etc/fstab`. The lines for the partitions depend on these partitions alone exactly when neither
makes a difference.
-/

namespace Backpack.Rc

open Shell

/-- `grep NTFS` finds something for the partition. -/
def NtfsSeen (cwd : WorkDir) (p : Partition) : Prop :=
  ∃ w ∈ lineWords cwd p.line, "NTFS".toList <:+: w

instance (cwd : WorkDir) (p : Partition) : Decidable (NtfsSeen cwd p) :=
  inferInstanceAs (Decidable (∃ w ∈ lineWords cwd p.line, _))

namespace Partition

variable (p : Partition)

/-- The name of a device has no blank. -/
theorem device_noBlank : NoBlank p.device := by
  intro c hc
  have hchar := p.device_char c hc
  simp only [deviceChar, Bool.and_eq_true, Bool.not_eq_true'] at hchar
  exact hchar.1.1

/-- Nor a character that is special in a pattern. -/
theorem device_basic : ∀ c ∈ p.device, Flavour.basic.ordinary c = true := by
  intro c hc
  have hchar := p.device_char c hc
  simp only [deviceChar, Bool.and_eq_true] at hchar
  exact hchar.2

theorem slash_mem_device : '/' ∈ p.device := p.dev.mem (by decide)

theorem device_ne_nil : p.device ≠ [] := List.ne_nil_of_mem p.slash_mem_device

theorem no_tab : '\t' ∉ p.device := fun hc => absurd (p.device_noBlank _ hc) (by decide)

theorem no_blank : ' ' ∉ p.device := fun hc => absurd (p.device_noBlank _ hc) (by decide)

theorem no_newline : '\n' ∉ p.device := fun hc => absurd (p.device_noBlank _ hc) (by decide)

/-- A line of the listing has no backslash and no newline in it. -/
theorem not_mem_line : '\\' ∉ p.line ∧ '\n' ∉ p.line := by
  have hdevice : '\\' ∉ p.device := by
    intro hc
    exact absurd (p.device_basic _ hc) (by decide)
  unfold line
  simp only [List.mem_append, List.mem_cons, not_or]
  exact ⟨⟨hdevice, by decide, fun hc => (p.rest_char _ hc).1 rfl⟩, p.no_newline, by decide,
    fun hc => (p.rest_char _ hc).2 rfl⟩

/-- `fileSystem` for the partition -/
def fs : Text := fileSystem ((p.line.drop 52).take 2)

variable (cwd : WorkDir)

/-- The first word of a line is the device. -/
theorem lineWords_line : lineWords cwd p.line = p.device :: lineWords cwd p.rest := by
  have hwords : words p.line = p.device :: words p.rest :=
    words_append_blank p.device_noBlank p.device_ne_nil rfl p.rest
  have hstar : p.device ≠ ['*'] := by
    intro h
    have hmem := p.slash_mem_device
    rw [h] at hmem
    exact absurd hmem (by decide)
  unfold lineWords
  rw [hwords, List.flatMap_cons, if_neg fun h => hstar h.1]
  rfl

theorem echo_lineWords :
    echo (lineWords cwd p.line) = joinWords (lineWords cwd p.line) ++ ['\n'] := by
  rw [lineWords_line]
  exact echo_cons (isEchoOption_of_slash p.slash_mem_device) _

/-- What is echoed is one line. -/
theorem fileLines_echo :
    fileLines (echo (lineWords cwd p.line)) = [joinWords (lineWords cwd p.line)] := by
  rw [echo_lineWords]
  refine fileLines_line (newline_not_mem_joinWords fun w hw hnewline => ?_)
  rcases List.mem_flatMap.mp hw with ⟨v, hv, hw⟩
  split_ifs at hw with hstar
  · exact cwd.no_newline w hw hnewline
  · rw [List.mem_singleton.mp hw] at hnewline
    have hblank := noBlank_of_mem_splitOnP (List.mem_of_mem_filter hv) _ hnewline
    exact absurd hblank (by decide)

/-- The first word of the line is the device. -/
theorem cutFirst_echo : cutFirst (echo (lineWords cwd p.line)) = p.device := by
  have hall : ∀ c ∈ p.device, (c != ' ') = true := by
    intro c hc
    exact bne_iff_ne.mpr fun h => p.no_blank (h ▸ hc)
  unfold cutFirst
  rw [fileLines_echo, lineWords_line, List.map_singleton, List.intercalate_singleton]
  cases hws : lineWords cwd p.rest with
  | nil =>
    rw [joinWords, List.intercalate_singleton]
    exact List.takeWhile_eq_self_iff.mpr hall
  | cons w ws =>
    have hjoin : joinWords (p.device :: w :: ws) = p.device ++ ' ' :: joinWords (w :: ws) := by
      unfold joinWords
      rw [List.intercalate_cons_of_ne_nil (List.cons_ne_nil _ _)]
      simp
    rw [hjoin, List.takeWhile_append_of_pos hall]
    simp

/-- grep finds the word when one of the words, expanded, has it. -/
theorem grep_ntfs : noOutput (grep .basic "NTFS".toList (echo (lineWords cwd p.line))) = false ↔
    NtfsSeen cwd p := by
  have hord : ∀ c ∈ "NTFS".toList, Flavour.basic.ordinary c = true := by decide
  have hjoin := @infix_joinWords_iff "NTFS".toList (lineWords cwd p.line) (by decide) (by decide)
  unfold grep
  rw [fileLines_echo, noOutput_eq_false_iff]
  simp only [List.mem_filter, List.mem_singleton, grepLine_ordinary hord]
  refine Iff.trans ⟨?_, fun h => ?_⟩ hjoin
  · rintro ⟨l, ⟨rfl, h⟩, -⟩
    exact h
  · refine ⟨_, ⟨rfl, h⟩, fun hnil => ?_⟩
    rw [hnil] at h
    exact absurd h (by decide)

/-- The device occurs in the file. -/
theorem grep_device (t : Text) : noOutput (grep .basic p.device t) = false ↔
    ∃ l ∈ fileLines t, p.device <:+: l := by
  unfold grep
  rw [noOutput_eq_false_iff]
  simp only [List.mem_filter, grepLine_ordinary p.device_basic]
  refine ⟨?_, ?_⟩
  · rintro ⟨l, ⟨hl, h⟩, -⟩
    exact ⟨l, hl, h⟩
  · rintro ⟨l, hl, h⟩
    refine ⟨l, ⟨hl, h⟩, fun hnil => p.device_ne_nil ?_⟩
    rw [hnil] at h
    exact List.infix_nil.mp h

end Partition

/-! ## One partition -/

/-- `NTFSOPTS` after a partition. -/
def nextOpts (cwd : WorkDir) (ntfsopts : Text) (p : Partition) : Text :=
  if NtfsSeen cwd p then umaskOption else ntfsopts

/-- The lines that are appended for a partition. -/
def newLines (cwd : WorkDir) (fstab ntfsopts : Text) (p : Partition) : List Text :=
  if (∃ l ∈ fileLines fstab, p.device <:+: l) ∨ p.fs = [] then []
  else [fstabLine p.device p.fs (nextOpts cwd ntfsopts p)]

/-- One turn of the loop adds the partition's lines and may set the mask. -/
theorem mountPartition_eq (cwd : WorkDir) (mount : Text → Text → Text) (s : Session)
    (p : Partition) :
    (mountPartition cwd mount s p.line).ntfsopts = nextOpts cwd s.ntfsopts p ∧
      (mountPartition cwd mount s p.line).fstab =
        s.fstab ++ unlines (newLines cwd s.fstab s.ntfsopts p) := by
  have hopts : (if !noOutput (grep .basic "NTFS".toList (echo (lineWords cwd p.line))) then
      umaskOption else s.ntfsopts) = nextOpts cwd s.ntfsopts p := by
    unfold nextOpts
    by_cases hseen : NtfsSeen cwd p
    · rw [(p.grep_ntfs cwd).mpr hseen, if_pos hseen]
      rfl
    · rw [(Bool.not_eq_false _).mp fun h => hseen ((p.grep_ntfs cwd).mp h), if_neg hseen]
      rfl
  unfold mountPartition newLines
  simp only [hopts, p.cutFirst_echo cwd]
  by_cases hfound : ∃ l ∈ fileLines s.fstab, p.device <:+: l
  · rw [(p.grep_device s.fstab).mpr hfound, if_pos (Or.inl hfound)]
    simp [unlines]
  · rw [(Bool.not_eq_false _).mp fun h => hfound ((p.grep_device s.fstab).mp h)]
    by_cases hfs : p.fs = []
    · rw [if_pos (Or.inr hfs)]
      have hfs' : fileSystem ((p.line.drop 52).take 2) = [] := hfs
      simp [hfs', unlines]
    · rw [if_neg (not_or.mpr ⟨hfound, hfs⟩)]
      have hfs' : fileSystem ((p.line.drop 52).take 2) ≠ [] := hfs
      simp only [Bool.not_true, Bool.false_eq_true, if_false, hfs']
      split_ifs <;> exact ⟨rfl, by simp [unlines, Partition.fs]⟩

/-- The lines that are appended for all partitions. -/
def allNewLines (cwd : WorkDir) : Text → Text → List Partition → List Text
  | _, _, [] => []
  | fstab, ntfsopts, p :: ps =>
    newLines cwd fstab ntfsopts p ++
      allNewLines cwd (fstab ++ unlines (newLines cwd fstab ntfsopts p)) (nextOpts cwd ntfsopts p) ps

/-- The loop adds the lines of all partitions. -/
theorem foldl_mountPartition (cwd : WorkDir) (mount : Text → Text → Text) (ps : List Partition)
    (s : Session) :
    (ps.foldl (fun s p => mountPartition cwd mount s p.line) s).fstab =
      s.fstab ++ unlines (allNewLines cwd s.fstab s.ntfsopts ps) := by
  induction ps generalizing s with
  | nil => simp [allNewLines, unlines]
  | cons p ps ih =>
    rcases mountPartition_eq cwd mount s p with ⟨hopts, hfstab⟩
    rw [List.foldl_cons, ih, hopts, hfstab, allNewLines, unlines_append, List.append_assoc]

/-- The script adds the lines of all partitions to fstab. -/
theorem rcMount_fstab (cwd : WorkDir) (mount : Text → Text → Text) (l : Listing)
    (fstab mtab : Text) :
    (rcMount cwd mount l.output ⟨fstab, mtab, [], []⟩).fstab =
      fstab ++ unlines (allNewLines cwd fstab [] l.partitions) := by
  have hread : readValues (unlines (l.partitions.map Partition.line)) =
      l.partitions.map Partition.line := by
    refine readValues_unlines_of_trim fun line hline => ?_
    rcases List.mem_map.mp hline with ⟨p, -, rfl⟩
    exact ⟨p.not_mem_line.2, p.not_mem_line.1, p.trimmed⟩
  unfold rcMount
  rw [l.lines, hread, List.foldl_map, foldl_mountPartition]

/-! ## The lines -/

/-- The file systems that the table of ids knows. -/
theorem fileSystem_mem (id : Text) :
    fileSystem id ∈ [[], "fat".toList, "vfat".toList, "auto".toList] := by
  unfold fileSystem
  split_ifs <;> simp

/-- The options are empty or the mask. -/
theorem nextOpts_mem {cwd : WorkDir} {ntfsopts : Text} {p : Partition}
    (h : ntfsopts ∈ [[], umaskOption]) :
    nextOpts cwd ntfsopts p ∈ [[], umaskOption] := by
  unfold nextOpts
  split_ifs
  · simp
  · exact h

section
variable {p : Partition} {fs ntfsopts : Text}
  (hfs : fs ∈ [[], "fat".toList, "vfat".toList, "auto".toList])
  (hopts : ntfsopts ∈ [[], umaskOption])

/-- The line begins with the device. -/
theorem takeWhile_fstabLine :
    (fstabLine p.device fs ntfsopts).takeWhile (· != '\t') = p.device := by
  have hall : ∀ c ∈ p.device, (c != '\t') = true := by
    intro c hc
    exact bne_iff_ne.mpr fun h => p.no_tab (h ▸ hc)
  unfold fstabLine
  simp only [List.append_assoc, List.cons_append]
  rw [List.takeWhile_append_of_pos hall]
  simp

theorem slash_not_mem_basename (path : Text) : '/' ∉ basename [path] := by
  change '/' ∉ if isOption path then [] else lastComponent path
  split_ifs
  · exact List.not_mem_nil
  · exact slash_not_mem_lastComponent path

theorem basename_device {c : Char} (h : c ∈ basename [p.device]) : c ∈ p.device := by
  change c ∈ if isOption p.device then [] else lastComponent p.device at h
  split_ifs at h
  · exact absurd h List.not_mem_nil
  · exact mem_of_mem_lastComponent h

include hfs hopts

/-- A line of fstab has no newline in it. -/
theorem newline_not_mem_fstabLine : '\n' ∉ fstabLine p.device fs ntfsopts := by
  have hfs' : '\n' ∉ fs := by
    have hall : ∀ t ∈ [[], "fat".toList, "vfat".toList, "auto".toList], '\n' ∉ t := by decide
    exact hall fs hfs
  have hopts' : '\n' ∉ ntfsopts := by
    have hall : ∀ t ∈ [[], umaskOption], '\n' ∉ t := by decide
    exact hall ntfsopts hopts
  have hbase : '\n' ∉ basename [p.device] := fun h => p.no_newline (basename_device h)
  unfold fstabLine
  simp only [List.mem_append, List.mem_cons, not_or]
  exact ⟨⟨⟨⟨⟨p.no_newline, by decide, by decide, hbase⟩, by decide, hfs'⟩, by decide⟩, hopts'⟩,
    by decide⟩

/-- Another device occurs in the line only within the device of the line. -/
theorem infix_fstabLine_iff (q : Partition) :
    q.device <:+: fstabLine p.device fs ntfsopts ↔ q.device <:+: p.device := by
  have hshape : fstabLine p.device fs ntfsopts = p.device ++ '\t' :: (("/mnt/".toList ++
      basename [p.device]) ++ '\t' :: (fs ++ '\t' :: ("defaults,auto,exec,users,ro".toList ++
        (ntfsopts ++ " 0 0".toList)))) := by
    unfold fstabLine
    simp only [List.append_assoc, List.cons_append]
    rfl
  have hdev : "/dev/".toList <:+: q.device := q.dev.isInfix
  -- a device name needs two slashes with `dev` between them
  have hpoint : ¬ q.device <:+: "/mnt/".toList ++ basename [p.device] := by
    intro h
    have hslash : '/' ∉ basename [p.device] := slash_not_mem_basename p.device
    have hinf : ['/', 'd', 'e', 'v', '/'] <:+: '/' :: 'm' :: 'n' :: 't' :: '/' ::
        basename [p.device] := hdev.trans h
    simp only [List.infix_cons_iff, List.cons_prefix_cons, Char.reduceEq, false_and, and_false,
      true_and, false_or] at hinf
    rcases hinf with h | h
    · exact hslash (h.mem (by decide))
    · exact hslash (h.mem (by decide))
  have hfs' : ¬ q.device <:+: fs := by
    have hall : ∀ t ∈ [[], "fat".toList, "vfat".toList, "auto".toList],
        ¬ "/dev/".toList <:+: t := by decide
    exact fun h => hall fs hfs (hdev.trans h)
  have hrest : ¬ q.device <:+: "defaults,auto,exec,users,ro".toList ++
      (ntfsopts ++ " 0 0".toList) := by
    have hall : ∀ t ∈ [[], umaskOption], ¬ "/dev/".toList <:+:
        "defaults,auto,exec,users,ro".toList ++ (t ++ " 0 0".toList) := by decide
    exact fun h => hall ntfsopts hopts (hdev.trans h)
  rw [hshape, infix_append_cons_iff q.no_tab, infix_append_cons_iff q.no_tab,
    infix_append_cons_iff q.no_tab]
  simp only [hpoint, hfs', hrest, or_false]

end

/-! ## Independence -/

/-- The device occurs in the initial file, or in one of the lines that are due for the partitions
before. -/
def Occurs (fstab : Text) (pre : List Partition) (p : Partition) : Prop :=
  (∃ l ∈ fileLines fstab, p.device <:+: l) ∨ ∃ q ∈ pre, Due fstab q ∧ p.device <:+: q.device

/-- The partition is treated as its own line says, after the partitions `pre`. -/
def Undisturbed (cwd : WorkDir) (fstab : Text) (pre : List Partition) (p : Partition) : Prop :=
  (Due fstab p → ¬ Occurs fstab pre p ∧ p.fs ≠ [] ∧
    ((∃ q ∈ pre ++ [p], NtfsSeen cwd q) ↔ p.saysNtfs)) ∧
  (¬ Due fstab p → Occurs fstab pre p ∨ p.fs = [])

/-- The lines that are due. -/
def dueLines (fstab : Text) (ps : List Partition) : List Text :=
  (ps.filter fun p => Due fstab p).map Partition.ownLine

/-- The lines due for two lists of partitions. -/
theorem dueLines_append (fstab : Text) (ps qs : List Partition) :
    dueLines fstab (ps ++ qs) = dueLines fstab ps ++ dueLines fstab qs := by
  simp [dueLines]

/-- `NTFSOPTS` after the partitions `pre`. -/
def optsAfter (cwd : WorkDir) (pre : List Partition) : Text :=
  if ∃ q ∈ pre, NtfsSeen cwd q then umaskOption else []

/-- The options left over are empty or the mask. -/
theorem optsAfter_mem (cwd : WorkDir) (pre : List Partition) :
    optsAfter cwd pre ∈ [[], umaskOption] := by
  unfold optsAfter
  split_ifs <;> simp

/-- The options go from partition to partition. -/
theorem nextOpts_optsAfter (cwd : WorkDir) (pre : List Partition) (p : Partition) :
    nextOpts cwd (optsAfter cwd pre) p = optsAfter cwd (pre ++ [p]) := by
  unfold nextOpts optsAfter
  by_cases hp : NtfsSeen cwd p
  · rw [if_pos hp, if_pos ⟨p, by simp, hp⟩]
  · rw [if_neg hp]
    have hiff : (∃ q ∈ pre ++ [p], NtfsSeen cwd q) ↔ ∃ q ∈ pre, NtfsSeen cwd q := by
      simp [or_and_right, exists_or, hp]
    simp only [hiff]

theorem ownLine_eq (p : Partition) : p.ownLine =
    fstabLine p.device p.fs (if p.saysNtfs then umaskOption else []) := rfl

theorem newline_not_mem_ownLine (p : Partition) : '\n' ∉ p.ownLine := by
  rw [ownLine_eq]
  refine newline_not_mem_fstabLine (fileSystem_mem _) ?_
  split_ifs <;> simp

section
variable {cwd : WorkDir} {fstab : Text}

/-- What `grep` finds when exactly the lines that are due were appended. -/
theorem occurs_iff {pre : List Partition}
    (hterm : Terminated fstab ∨ ∀ q ∈ pre, ¬ Due fstab q) (p : Partition) :
    (∃ l ∈ fileLines (fstab ++ unlines (dueLines fstab pre)), p.device <:+: l) ↔
      Occurs fstab pre p := by
  have hempty : Terminated fstab ∨ dueLines fstab pre = [] := by
    refine hterm.imp_right fun h => ?_
    unfold dueLines
    rw [List.map_eq_nil_iff, List.filter_eq_nil_iff]
    simpa using h
  have hnewline : ∀ l ∈ dueLines fstab pre, '\n' ∉ l := by
    intro l hl
    rcases List.mem_map.mp hl with ⟨q, -, rfl⟩
    exact newline_not_mem_ownLine q
  have hopts : ∀ q : Partition, (if q.saysNtfs then umaskOption else []) ∈
      [[], umaskOption] := by
    intro q
    split_ifs <;> simp
  rw [fileLines_append_unlines hempty hnewline]
  unfold Occurs dueLines
  simp only [List.mem_append, or_and_right, exists_or, List.mem_map, List.mem_filter,
    decide_eq_true_eq]
  refine or_congr_right ⟨?_, ?_⟩
  · rintro ⟨l, ⟨q, ⟨hq, hdue⟩, rfl⟩, h⟩
    exact ⟨q, hq, hdue, (infix_fstabLine_iff (fileSystem_mem _) (hopts q) p).mp h⟩
  · rintro ⟨q, hq, hdue, h⟩
    exact ⟨_, ⟨q, ⟨hq, hdue⟩, rfl⟩, (infix_fstabLine_iff (fileSystem_mem _) (hopts q) p).mpr h⟩

/-- One partition: it gets what it is due. -/
theorem newLines_eq_iff {pre : List Partition}
    (hterm : Terminated fstab ∨ ∀ q ∈ pre, ¬ Due fstab q) (p : Partition) :
    newLines cwd (fstab ++ unlines (dueLines fstab pre)) (optsAfter cwd pre) p =
      dueLines fstab [p] ↔ Undisturbed cwd fstab pre p := by
  have hown : ∀ o, fstabLine p.device p.fs o = p.ownLine ↔
      o = if p.saysNtfs then umaskOption else [] := by
    intro o
    rw [ownLine_eq]
    unfold fstabLine
    rw [List.append_left_inj, List.append_right_inj]
  have hdue : dueLines fstab [p] = if Due fstab p then [p.ownLine] else [] := by
    unfold dueLines
    by_cases h : Due fstab p <;> simp [h]
  have hopts : (optsAfter cwd (pre ++ [p]) = if p.saysNtfs then umaskOption else []) ↔
      ((∃ q ∈ pre ++ [p], NtfsSeen cwd q) ↔ p.saysNtfs) := by
    unfold optsAfter
    by_cases hseen : ∃ q ∈ pre ++ [p], NtfsSeen cwd q <;> by_cases hsays : p.saysNtfs <;>
      simp only [hseen, hsays, if_true, if_false] <;> decide
  unfold newLines Undisturbed
  rw [hdue, nextOpts_optsAfter]
  have hcond : ((∃ l ∈ fileLines (fstab ++ unlines (dueLines fstab pre)), p.device <:+: l) ∨
      p.fs = []) ↔ Occurs fstab pre p ∨ p.fs = [] := or_congr_left (occurs_iff hterm p)
  by_cases hd : Due fstab p <;> by_cases ho : Occurs fstab pre p ∨ p.fs = []
  · -- the line is missing
    rw [if_pos (hcond.mpr ho), if_pos hd]
    refine ⟨fun h => absurd h (by simp), fun h => ?_⟩
    have hright := h.1 hd
    exact absurd ho (not_or.mpr ⟨hright.1, hright.2.1⟩)
  · -- a line is there, its options have to be right
    rcases not_or.mp ho with ⟨hnot, hfs⟩
    rw [if_neg fun h => ho (hcond.mp h), if_pos hd, List.cons.injEq, hown, hopts]
    refine ⟨fun h => ⟨fun _ => ⟨hnot, hfs, h.1⟩, fun h' => absurd hd h'⟩, fun h => ?_⟩
    exact ⟨(h.1 hd).2.2, rfl⟩
  · rw [if_pos (hcond.mpr ho), if_neg hd]
    exact ⟨fun _ => ⟨fun h => absurd h hd, fun _ => ho⟩, fun _ => rfl⟩
  · -- a line that is not due
    rw [if_neg fun h => ho (hcond.mp h), if_neg hd]
    exact ⟨fun h => absurd h (by simp), fun h => absurd (h.2 hd) ho⟩

/-- Every line that is appended belongs to a partition of the listing. -/
theorem mem_allNewLines {f ntfsopts : Text} (hopts : ntfsopts ∈ [[], umaskOption])
    {ps : List Partition} {x : Text} (hx : x ∈ allNewLines cwd f ntfsopts ps) :
    ∃ p ∈ ps, ∃ o ∈ [[], umaskOption], x = fstabLine p.device p.fs o := by
  induction ps generalizing f ntfsopts with
  | nil => exact absurd hx List.not_mem_nil
  | cons p ps ih =>
    rw [allNewLines] at hx
    rcases List.mem_append.mp hx with hx | hx
    · unfold newLines at hx
      split_ifs at hx
      · exact absurd hx List.not_mem_nil
      · exact ⟨p, List.mem_cons_self, _, nextOpts_mem hopts, List.mem_singleton.mp hx⟩
    · rcases ih (nextOpts_mem hopts) hx with ⟨q, hq, o, ho, h⟩
      exact ⟨q, List.mem_cons_of_mem p hq, o, ho, h⟩

/-- A line that is due begins with its device. -/
theorem mem_dueLines {ps : List Partition} {x : Text} (hx : x ∈ dueLines fstab ps) :
    ∃ p ∈ ps, x.takeWhile (· != '\t') = p.device := by
  rcases List.mem_map.mp hx with ⟨p, hp, rfl⟩
  exact ⟨p, List.mem_of_mem_filter hp, takeWhile_fstabLine⟩

/-- Lists that begin with the lines of one device. -/
theorem append_inj_of_device {d : Text} {a b r s : List Text}
    (ha : ∀ x ∈ a, x.takeWhile (· != '\t') = d) (hb : ∀ x ∈ b, x.takeWhile (· != '\t') = d)
    (hr : ∀ x ∈ r, x.takeWhile (· != '\t') ≠ d) (hs : ∀ x ∈ s, x.takeWhile (· != '\t') ≠ d) :
    a ++ r = b ++ s ↔ a = b ∧ r = s := by
  refine ⟨fun h => ?_, fun h => by rw [h.1, h.2]⟩
  have hfilter : ∀ {u v : List Text}, (∀ x ∈ u, x.takeWhile (· != '\t') = d) →
      (∀ x ∈ v, x.takeWhile (· != '\t') ≠ d) →
        (u ++ v).filter (fun x => x.takeWhile (· != '\t') = d) = u := by
    intro u v hu hv
    rw [List.filter_append, List.filter_eq_self.mpr fun x hx => decide_eq_true (hu x hx),
      List.filter_eq_nil_iff.mpr fun x hx => by simpa using hv x hx, List.append_nil]
  have hab : a = b := by rw [← hfilter ha hr, h, hfilter hb hs]
  rw [hab] at h
  exact ⟨hab, List.append_cancel_left h⟩

/-- The lines of the first partition come first, and no other line begins with its device. -/
theorem allNewLines_cons_iff {f o : Text} (ho : o ∈ [[], umaskOption]) {p : Partition}
    {ps : List Partition} (hnodup : ((p :: ps).map Partition.device).Nodup) :
    allNewLines cwd f o (p :: ps) = dueLines fstab (p :: ps) ↔
      newLines cwd f o p = dueLines fstab [p] ∧
        allNewLines cwd (f ++ unlines (newLines cwd f o p)) (nextOpts cwd o p) ps =
          dueLines fstab ps := by
  rw [List.map_cons, List.nodup_cons] at hnodup
  have hother : ∀ q ∈ ps, q.device ≠ p.device := fun q hq h =>
    hnodup.1 (h ▸ List.mem_map_of_mem hq)
  have hcons : dueLines fstab (p :: ps) = dueLines fstab [p] ++ dueLines fstab ps :=
    dueLines_append fstab [p] ps
  have hnew : ∀ x ∈ newLines cwd f o p, x.takeWhile (· != '\t') = p.device := by
    intro x hx
    unfold newLines at hx
    split_ifs at hx
    · exact absurd hx List.not_mem_nil
    · rw [List.mem_singleton.mp hx]
      exact takeWhile_fstabLine
  have hown : ∀ x ∈ dueLines fstab [p], x.takeWhile (· != '\t') = p.device := by
    intro x hx
    rcases mem_dueLines hx with ⟨q, hq, h⟩
    rw [h, List.mem_singleton.mp hq]
  have hlater : ∀ x ∈ allNewLines cwd (f ++ unlines (newLines cwd f o p)) (nextOpts cwd o p) ps,
      x.takeWhile (· != '\t') ≠ p.device := by
    intro x hx
    rcases mem_allNewLines (nextOpts_mem ho) hx with ⟨q, hq, o', -, rfl⟩
    rw [takeWhile_fstabLine]
    exact hother q hq
  have hlaterDue : ∀ x ∈ dueLines fstab ps, x.takeWhile (· != '\t') ≠ p.device := by
    intro x hx
    rcases mem_dueLines hx with ⟨q, hq, h⟩
    rw [h]
    exact hother q hq
  rw [allNewLines, hcons, append_inj_of_device hnew hown hlater hlaterDue]

/-- All partitions: each one gets what it is due if and only if none is disturbed. -/
theorem allNewLines_eq_iff {pre ps : List Partition}
    (hterm : Terminated fstab ∨ ∀ q ∈ pre ++ ps, ¬ Due fstab q)
    (hnodup : (ps.map Partition.device).Nodup) :
    allNewLines cwd (fstab ++ unlines (dueLines fstab pre)) (optsAfter cwd pre) ps =
      dueLines fstab ps ↔
    ∀ mid p post, ps = mid ++ p :: post → Undisturbed cwd fstab (pre ++ mid) p := by
  induction ps generalizing pre with
  | nil => simp [allNewLines, dueLines]
  | cons p ps ih =>
    have hpre : Terminated fstab ∨ ∀ q ∈ pre, ¬ Due fstab q :=
      hterm.imp_right fun h q hq => h q (List.mem_append_left _ hq)
    have hnext : Terminated fstab ∨ ∀ q ∈ (pre ++ [p]) ++ ps, ¬ Due fstab q := by
      simpa using hterm
    have hrest : (ps.map Partition.device).Nodup := (List.nodup_cons.mp hnodup).2
    rw [allNewLines_cons_iff (optsAfter_mem cwd pre) hnodup,
      @forall_split_cons _ p ps fun mid q => Undisturbed cwd fstab (pre ++ mid) q,
      List.append_nil, nextOpts_optsAfter, newLines_eq_iff hpre]
    refine and_congr_right fun hp => ?_
    have heq := (newLines_eq_iff hpre p).mpr hp
    rw [heq, List.append_assoc, ← unlines_append, ← dueLines_append, ih hnext hrest]
    simp only [List.append_assoc, List.singleton_append]

end

/-- Nothing that comes before a partition disturbs it. -/
structure Independent (cwd : WorkDir) (l : Listing) (fstab : Text) : Prop where
  /-- the first line that is appended begins a new line -/
  terminated : Terminated fstab ∨ ∀ p ∈ l.partitions, ¬ Due fstab p
  undisturbed : ∀ pre p post, l.partitions = pre ++ p :: post → Undisturbed cwd fstab pre p

/-- An NTFS partition. -/
def windows : Partition where
  device := "/dev/hda1".toList
  rest := "  *           1        1020     8193118+   7  HPFS/NTFS".toList
  device_char := by decide
  dev := by decide
  rest_char := by decide
  trimmed := by decide +kernel
  rest_word := by decide +kernel

/-- A Linux partition. -/
def linux : Partition where
  device := "/dev/hda2".toList
  rest := "           1021        2040     8193150   83  Linux".toList
  device_char := by decide
  dev := by decide
  rest_char := by decide
  trimmed := by decide +kernel
  rest_word := by decide +kernel

def windowsFirst : Listing where
  output := unlines [windows.line, linux.line]
  partitions := [windows, linux]
  lines := by decide +kernel
  distinct := by decide

end Backpack.Rc
