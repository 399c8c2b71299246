import Backpack.Kernel.Readdir

/-!
# What a reader of a directory gets

However a reader sizes its buffers, it is given the names that the union shows in the directory,
each of them once.
-/

namespace Kernel

open Shell Overlay
open UnionFs (Path whPrefix)

variable {α : Type}

/-! ## What is read in the end -/

/-- The names that a branch adds to those that were seen, and which of them are given. -/
def readNames (bindex : Nat) : List FilldirNode → List Text → List FilldirNode × List Text
  | nodes, [] => (nodes, [])
  | nodes, entry :: rest =>
    let isWhEntry := decide (4 < entry.length) && whPrefix.isPrefixOf entry
    let name := if isWhEntry then entry.drop 4 else entry
    if nodes.any fun node => node.name = name then readNames bindex nodes rest
    else
      let r := readNames bindex (nodes ++ [⟨name, bindex, isWhEntry⟩]) rest
      (r.1, if isWhEntry then r.2 else name :: r.2)

/-- The names that the branches `is` give after those that were seen. -/
def readBranches (files : HiddenFiles) : List FilldirNode → List Nat → List Text
  | _, [] => []
  | nodes, i :: is =>
    let r := readNames i nodes (listing files i)
    r.2 ++ readBranches files r.1 is

/-- What is still to be read from a state on. -/
def RdState.rest (files : HiddenFiles) (bend : Nat) (uds : RdState) : List Text :=
  if uds.bindex ≤ bend then
    let r := readNames uds.bindex uds.nodes ((listing files uds.bindex).drop uds.dirpos)
    r.2 ++ readBranches files r.1 (branches (uds.bindex + 1) bend)
  else []

section

variable (reclen : Text → Nat)

/-- How the callback treats an entry: it was seen, or it is a whiteout or fits in, or it does
not. -/
theorem unionfsFilldir_cases (buf : GetdentsCallback) (entry : Text) (rest : List Text) :
    let b := buf.rdstate.bindex
    let buf1 := unionfsFilldir reclen buf entry
    (buf1 = buf ∧ readNames b buf.rdstate.nodes (entry :: rest) =
      readNames b buf.rdstate.nodes rest) ∨
    (∃ new : List Text, buf1.filldirError = buf.filldirError ∧ buf1.rdstate.bindex = b ∧
      buf1.rdstate.offset = buf.rdstate.offset + new.length ∧
      buf1.dirent.entries = buf.dirent.entries ++ new ∧
      (new = [] → buf1.dirent.room = buf.dirent.room) ∧
      (readNames b buf.rdstate.nodes (entry :: rest)).1 =
        (readNames b buf1.rdstate.nodes rest).1 ∧
      (readNames b buf.rdstate.nodes (entry :: rest)).2 =
        new ++ (readNames b buf1.rdstate.nodes rest).2) ∨
    buf1 = { buf with
        rdstate := { buf.rdstate with offset := buf.rdstate.offset + 1 }
        filldirError := true } ∧
      ∃ name names, (readNames b buf.rdstate.nodes (entry :: rest)).2 = name :: names ∧
        buf.dirent.room < reclen name := by
  simp only [unionfsFilldir, readNames, RdState.addFilldirNode]
  set isWh := decide (4 < entry.length) && whPrefix.isPrefixOf entry with hisWh
  set name := if isWh = true then entry.drop 4 else entry with hname
  by_cases hseen : (buf.rdstate.nodes.any fun node => node.name = name) = true
  · simp only [if_pos hseen]
    exact .inl ⟨trivial, trivial⟩
  simp only [if_neg hseen]
  right
  cases hwh : isWh with
  | true =>
    simp only [if_true]
    exact .inl ⟨[], by simp⟩
  | false =>
    simp only [Bool.false_eq_true, if_false, filldir]
    by_cases hroom : reclen name ≤ buf.dirent.room
    · simp only [if_pos hroom]
      exact .inl ⟨[name], by simp⟩
    · simp only [if_neg hroom]
      exact .inr ⟨trivial, name, _, rfl, by omega⟩

/-- A call of the lower `readdir` gives the first of the names that the branch would, and counts
them, with the one that does not fit in. -/
theorem vfsReaddir_spec {l : List Text} (buf : GetdentsCallback) (herr : buf.filldirError = false) :
    let r := vfsReaddir reclen l buf
    let b := buf.rdstate.bindex
    ∃ new, r.1.dirent.entries = buf.dirent.entries ++ new ∧
      (new = [] → r.1.dirent.room = buf.dirent.room) ∧
      (readNames b buf.rdstate.nodes l).1 = (readNames b r.1.rdstate.nodes (l.drop r.2)).1 ∧
      (readNames b buf.rdstate.nodes l).2 =
        new ++ (readNames b r.1.rdstate.nodes (l.drop r.2)).2 ∧
      (r.1.filldirError = false → r.1.rdstate.offset = buf.rdstate.offset + new.length) ∧
      (r.1.filldirError = true → r.1.rdstate.offset = buf.rdstate.offset + new.length + 1 ∧
        ∃ name names, (readNames b r.1.rdstate.nodes (l.drop r.2)).2 = name :: names ∧
          r.1.dirent.room < reclen name) := by
  induction l generalizing buf with
  | nil =>
    exact ⟨[], by simp [vfsReaddir], fun _ => rfl, rfl, rfl, fun _ => rfl,
      fun h => by simp [vfsReaddir, herr] at h⟩
  | cons entry rest ih =>
    simp only [vfsReaddir]
    rcases unionfsFilldir_cases reclen buf entry rest with
      ⟨hsame, hnames⟩ | ⟨new, herr1, hbindex, hoffset, hentries, hroom, hnodes, hnames⟩ |
      ⟨hfull, name, names, hnames, hroom⟩
    · obtain ⟨new, hentries, hroom, hnodes, hgiven, hoffset, hfull⟩ := ih buf herr
      rw [hsame, if_neg (by simp [herr]), hnames]
      exact ⟨new, hentries, hroom, hnodes, hgiven, hoffset, hfull⟩
    · obtain ⟨new', hentries', hroom', hnodes', hgiven', hoffset', hfull'⟩ :=
        ih (unionfsFilldir reclen buf entry) (herr1.trans herr)
      rw [hbindex] at hnodes' hgiven' hfull'
      rw [if_neg (by simp [herr1, herr])]
      refine ⟨new ++ new', ?_, fun h => ?_, hnodes.trans hnodes', ?_, fun h => ?_, fun h => ?_⟩
      · rw [hentries', hentries, List.append_assoc]
      · obtain ⟨hnil, hnil'⟩ := List.append_eq_nil_iff.mp h
        exact (hroom' hnil').trans (hroom hnil)
      · rw [hnames, hgiven', List.append_assoc]
        rfl
      · rw [List.length_append, ← Nat.add_assoc, ← hoffset]
        exact hoffset' h
      · rw [List.length_append, ← Nat.add_assoc buf.rdstate.offset, ← hoffset]
        exact hfull' h
    · rw [hfull, if_pos rfl]
      exact ⟨[], by simp, fun _ => rfl, rfl, rfl, fun h => by simp at h,
        fun _ => ⟨rfl, name, names, hnames, hroom⟩⟩

/-- The branches of a range, first one first. -/
theorem branches_of_le {b e : Nat} (h : b ≤ e) : branches b e = b :: branches (b + 1) e := by
  have hlen : e + 1 - b = (e + 1 - (b + 1)) + 1 := by omega
  rw [branches, hlen, List.range'_succ]
  rfl

theorem branches_of_lt {b e : Nat} (h : e < b) : branches b e = [] := by
  have hlen : e + 1 - b = 0 := by omega
  rw [branches, hlen]
  rfl

/-- At the start of a branch all of it is left. -/
theorem rest_start (files : HiddenFiles) (bend b offset : Nat) (nodes : List FilldirNode) :
    RdState.rest files bend ⟨b, 0, offset, nodes⟩ = readBranches files nodes (branches b bend) := by
  rw [RdState.rest]
  split_ifs with h
  · rw [branches_of_le h]
    rfl
  · rw [branches_of_lt (by simpa using h)]
    rfl

/-- Within a branch the rest of it is left, and then the branches behind it. -/
theorem rest_within {files : HiddenFiles} {bend : Nat} {uds : RdState} (h : uds.bindex ≤ bend)
    (offset : Nat) : uds.rest files bend =
      (readNames uds.bindex uds.nodes ((listing files uds.bindex).drop uds.dirpos)).2 ++
        RdState.rest files bend ⟨uds.bindex + 1, 0, offset,
          (readNames uds.bindex uds.nodes ((listing files uds.bindex).drop uds.dirpos)).1⟩ := by
  rw [RdState.rest, if_pos h, rest_start]

/-- A branch without the directory is passed over. -/
theorem readdirLoop_none {files : HiddenFiles} {bend : Nat} {uds : RdState}
    (hle : uds.bindex ≤ bend) (hfile : files uds.bindex = none) (dirent : Dirent) :
    readdirLoop reclen files bend uds dirent =
      readdirLoop reclen files bend { uds with bindex := uds.bindex + 1, dirpos := 0 } dirent := by
  rw [readdirLoop, if_pos hle]
  split
  · rfl
  · simp_all
  · simp_all

/-- In a branch with the directory, the loop goes on where it had stopped. -/
theorem readdirLoop_ok {files : HiddenFiles} {bend : Nat} {uds : RdState} (hle : uds.bindex ≤ bend)
    {list : List Text} (hfile : files uds.bindex = some (.ok list)) (dirent : Dirent)
    (hoffset : (vfsReaddir reclen (list.drop uds.dirpos) ⟨uds, dirent, 0, false⟩).1.rdstate.offset <
      direof) :
    readdirLoop reclen files bend uds dirent =
      let r := vfsReaddir reclen (list.drop uds.dirpos) ⟨uds, dirent, 0, false⟩
      let uds1 := { r.1.rdstate with bindex := uds.bindex, dirpos := uds.dirpos + r.2 }
      if r.1.filldirError then some (.ok (uds1, r.1.dirent, true))
      else if r.1.entriesWritten = 0 then
        readdirLoop reclen files bend { uds1 with bindex := uds.bindex + 1, dirpos := 0 } r.1.dirent
      else readdirLoop reclen files bend uds1 r.1.dirent := by
  have hverify : (vfsReaddir reclen (list.drop uds.dirpos)
      ⟨uds, dirent, 0, false⟩).1.rdstate.verifyRdstateOffset = true := decide_eq_true hoffset
  rw [readdirLoop, if_pos hle]
  split
  · simp_all
  · simp_all
  · rename_i l h
    rw [hfile, Option.some.injEq, Except.ok.injEq] at h
    subst h
    simp only [hverify, not_true_eq_false, if_false]
    rfl

/-- The offset counts names that are left, and the one that does not fit in. -/
theorem offset_lt_direof {files : HiddenFiles} {bend : Nat} {uds : RdState}
    (hle : uds.bindex ≤ bend) {list : List Text} (hfile : files uds.bindex = some (.ok list))
    (hroom : uds.offset + (uds.rest files bend).length < direof) (dirent : Dirent) :
    (vfsReaddir reclen (list.drop uds.dirpos) ⟨uds, dirent, 0, false⟩).1.rdstate.offset <
      direof := by
  have hlist : listing files uds.bindex = list := by rw [listing, hfile]
  obtain ⟨new, -, -, -, hnames, hoffset, hfull⟩ := vfsReaddir_spec reclen
    (l := list.drop uds.dirpos) ⟨uds, dirent, 0, false⟩ rfl
  set r := vfsReaddir reclen (list.drop uds.dirpos) ⟨uds, dirent, 0, false⟩
  rw [rest_within hle uds.offset, hlist, hnames, List.length_append, List.length_append] at hroom
  cases herr : r.1.filldirError with
  | false =>
    have hcount : r.1.rdstate.offset = uds.offset + new.length := hoffset herr
    omega
  | true =>
    obtain ⟨hcount, name, names, hname, -⟩ := hfull herr
    have hcount : r.1.rdstate.offset = uds.offset + new.length + 1 := hcount
    rw [hname, List.length_cons] at hroom
    omega

/-- A call gives the first of the names that are left, and ends when there are none or when the
next one does not fit in. -/
theorem readdirLoop_spec {files : HiddenFiles} (hok : ∀ i e, files i ≠ some (.error e)) (bend : Nat)
    (uds : RdState) (dirent : Dirent)
    (hroom : uds.offset + (uds.rest files bend).length < direof) :
    ∃ uds' dirent' err new,
      readdirLoop reclen files bend uds dirent = some (.ok (uds', dirent', err)) ∧
      dirent'.entries = dirent.entries ++ new ∧ (new = [] → dirent'.room = dirent.room) ∧
      uds.rest files bend = new ++ uds'.rest files bend ∧
      uds'.offset ≤ uds.offset + new.length + 1 ∧ (err = false → bend < uds'.bindex) ∧
      (err = true → uds'.bindex ≤ bend ∧ ∃ name names, uds'.rest files bend = name :: names ∧
        dirent'.room < reclen name) := by
  induction uds, dirent using readdirLoop.induct reclen files bend with
  | case1 uds dirent hle hfile ih =>
    have hlist : listing files uds.bindex = [] := by rw [listing, hfile]
    have hrest : uds.rest files bend =
        RdState.rest files bend { uds with bindex := uds.bindex + 1, dirpos := 0 } := by
      rw [rest_within hle uds.offset, hlist, List.drop_nil]
      rfl
    rw [hrest] at hroom ⊢
    rw [readdirLoop_none reclen hle hfile]
    exact ih hroom
  | case2 uds dirent hle e hfile => exact absurd hfile (hok _ e)
  | case3 uds dirent hle list hfile r hverify =>
    exact absurd (decide_eq_true (offset_lt_direof reclen hle hfile hroom dirent)) hverify
  | case4 uds dirent hle list hfile r hverify herr =>
    have hlist : listing files uds.bindex = list := by rw [listing, hfile]
    obtain ⟨new, hentries, hsame, hnodes, hnames, -, hfull⟩ := vfsReaddir_spec reclen
      (l := list.drop uds.dirpos) ⟨uds, dirent, 0, false⟩ rfl
    obtain ⟨hoffset, name, names, hname, hlong⟩ := hfull herr
    rw [List.drop_drop] at hnodes hnames hname
    set uds1 : RdState := { r.1.rdstate with bindex := uds.bindex, dirpos := uds.dirpos + r.2 }
    have hrest : uds1.rest files bend = (readNames uds.bindex r.1.rdstate.nodes
        (list.drop (uds.dirpos + r.2))).2 ++ RdState.rest files bend ⟨uds.bindex + 1, 0, uds.offset,
          (readNames uds.bindex r.1.rdstate.nodes (list.drop (uds.dirpos + r.2))).1⟩ := by
      rw [rest_within (show uds1.bindex ≤ bend from hle) uds.offset,
        show listing files uds1.bindex = list from hlist]
    have hsplit : uds.rest files bend = new ++ uds1.rest files bend := by
      rw [rest_within hle uds.offset, hlist, hnodes, hnames, hrest, List.append_assoc]
    have hcons : uds1.rest files bend = name :: (names ++ RdState.rest files bend
        ⟨uds.bindex + 1, 0, uds.offset, (readNames uds.bindex r.1.rdstate.nodes
          (list.drop (uds.dirpos + r.2))).1⟩) := by
      rw [hrest, hname, List.cons_append]
    refine ⟨uds1, r.1.dirent, true, new, ?_, hentries, hsame, hsplit, hoffset.le, by simp,
      fun _ => ⟨hle, name, _, hcons, hlong⟩⟩
    rw [readdirLoop_ok reclen hle hfile dirent (offset_lt_direof reclen hle hfile hroom dirent)]
    exact if_pos herr
  | case5 uds dirent hle list hfile r uds1 hverify herr hwritten ih =>
    have hlist : listing files uds.bindex = list := by rw [listing, hfile]
    obtain ⟨new, hentries, hsame, hnodes, hnames, hoffset, -⟩ := vfsReaddir_spec reclen
      (l := list.drop uds.dirpos) ⟨uds, dirent, 0, false⟩ rfl
    have hoffset' : r.1.rdstate.offset = uds.offset + new.length :=
      hoffset (Bool.not_eq_true _ ▸ herr)
    rw [vfsReaddir_all reclen (by simpa using herr), List.drop_length] at hnodes hnames
    have hsplit : uds.rest files bend =
        new ++ RdState.rest files bend { uds1 with bindex := uds.bindex + 1, dirpos := 0 } := by
      rw [rest_within hle r.1.rdstate.offset, hlist, hnodes, hnames]
      simp only [readNames, List.append_nil]
      rfl
    have hleft : r.1.rdstate.offset + (RdState.rest files bend
        { uds1 with bindex := uds.bindex + 1, dirpos := 0 }).length < direof := by
      rw [hsplit, List.length_append] at hroom
      omega
    obtain ⟨uds', dirent', err, new', hloop, hentries', hsame', hsplit', hcount, hend, hfull⟩ :=
      ih hleft
    refine ⟨uds', dirent', err, new ++ new', ?_, ?_, fun h => ?_, ?_, ?_, hend, hfull⟩
    · rw [readdirLoop_ok reclen hle hfile dirent (offset_lt_direof reclen hle hfile hroom dirent)]
      exact (if_neg herr).trans ((if_pos hwritten).trans hloop)
    · rw [hentries', show r.1.dirent.entries = dirent.entries ++ new from hentries,
        List.append_assoc]
    · obtain ⟨hnil, hnil'⟩ := List.append_eq_nil_iff.mp h
      exact (hsame' hnil').trans (hsame hnil)
    · rw [hsplit, hsplit', List.append_assoc]
    · have hcount' : uds'.offset ≤ r.1.rdstate.offset + new'.length + 1 := hcount
      rw [List.length_append]
      omega
  | case6 uds dirent hle list hfile r uds1 hverify herr hwritten ih =>
    have hlist : listing files uds.bindex = list := by rw [listing, hfile]
    obtain ⟨new, hentries, hsame, hnodes, hnames, hoffset, -⟩ := vfsReaddir_spec reclen
      (l := list.drop uds.dirpos) ⟨uds, dirent, 0, false⟩ rfl
    have hoffset' : r.1.rdstate.offset = uds.offset + new.length :=
      hoffset (Bool.not_eq_true _ ▸ herr)
    rw [List.drop_drop] at hnodes hnames
    have hsplit : uds.rest files bend = new ++ uds1.rest files bend := by
      rw [rest_within hle uds.offset, hlist, hnodes, hnames,
        rest_within (show uds1.bindex ≤ bend from hle) uds.offset,
        show listing files uds1.bindex = list from hlist, List.append_assoc]
    have hleft : r.1.rdstate.offset + (uds1.rest files bend).length < direof := by
      rw [hsplit, List.length_append] at hroom
      omega
    obtain ⟨uds', dirent', err, new', hloop, hentries', hsame', hsplit', hcount, hend, hfull⟩ :=
      ih hleft
    refine ⟨uds', dirent', err, new ++ new', ?_, ?_, fun h => ?_, ?_, ?_, hend, hfull⟩
    · rw [readdirLoop_ok reclen hle hfile dirent (offset_lt_direof reclen hle hfile hroom dirent)]
      exact (if_neg herr).trans ((if_neg hwritten).trans hloop)
    · rw [hentries', show r.1.dirent.entries = dirent.entries ++ new from hentries,
        List.append_assoc]
    · obtain ⟨hnil, hnil'⟩ := List.append_eq_nil_iff.mp h
      exact (hsame' hnil').trans (hsame hnil)
    · rw [hsplit, hsplit', List.append_assoc]
    · have hcount' : uds'.offset ≤ r.1.rdstate.offset + new'.length + 1 := hcount
      rw [List.length_append]
      omega
  | case7 uds dirent hgt =>
    refine ⟨uds, dirent, false, [], ?_, by simp, fun _ => rfl, rfl, by simp, fun _ => by omega,
      by simp⟩
    rw [readdirLoop, if_neg hgt]

/-! ## The calls of a reader -/

/-- What is still to be given to a reader. -/
def DirFile.rest (files : HiddenFiles) (fbstart fbend : Nat) : DirFile → List Text
  | .start => readBranches files [] (branches fbstart fbend)
  | .within uds => uds.rest files fbend
  | .dirEof => []

/-- The offset from which a call goes on. -/
def DirFile.offset : DirFile → Nat
  | .start => 1
  | .within uds => uds.offset
  | .dirEof => 0

/-- One call gives the next names, and none only at the end or when the first does not fit. -/
theorem unionfsReaddir_spec {files : HiddenFiles} (hok : ∀ i e, files i ≠ some (.error e))
    (fbstart fbend : Nat) (file : DirFile) (room : Nat)
    (hbelow : file.offset + (file.rest files fbstart fbend).length < direof) :
    ∃ file' names,
      unionfsReaddir reclen files fbstart fbend file room = some (.ok (file', names)) ∧
      file.rest files fbstart fbend = names ++ file'.rest files fbstart fbend ∧
      file'.offset ≤ file.offset + names.length + 1 ∧
      (names = [] → file' = .dirEof ∨
        ∃ name ∈ file.rest files fbstart fbend, room < reclen name) := by
  -- one call from a state
  have key : ∀ uds : RdState, uds.offset + (uds.rest files fbend).length < direof →
      ∃ file' names,
      unionfsReaddir reclen files fbstart fbend (.within uds) room = some (.ok (file', names)) ∧
      uds.rest files fbend = names ++ file'.rest files fbstart fbend ∧
      file'.offset ≤ uds.offset + names.length + 1 ∧
      (names = [] → file' = .dirEof ∨ ∃ name ∈ uds.rest files fbend, room < reclen name) := by
    intro uds hbelow
    obtain ⟨uds', dirent', err, new, hloop, hentries, hsame, hsplit, hcount, hend, hfull⟩ :=
      readdirLoop_spec reclen hok fbend uds ⟨room, []⟩ hbelow
    rw [List.nil_append] at hentries
    rw [unionfsReaddir]
    simp only [hloop]
    cases err with
    | false =>
      have hgt := hend rfl
      refine ⟨.dirEof, new, ?_, ?_, Nat.zero_le _, fun _ => .inl rfl⟩
      · simp only [bind, Option.bind, if_pos (And.intro trivial hgt.le), hentries]
      · rw [hsplit, RdState.rest, if_neg (by omega)]
        rfl
    | true =>
      obtain ⟨_, name, names, hrest, hlong⟩ := hfull rfl
      refine ⟨.within uds', new, ?_, hsplit, hcount, fun hnew => .inr ⟨name, ?_, ?_⟩⟩
      · simp only [bind, Option.bind, Bool.true_eq_false, false_and, if_false, hentries]
      · rw [hsplit, hrest]
        simp
      · have hroom : dirent'.room = room := hsame hnew
        omega
  cases file with
  | dirEof => exact ⟨.dirEof, [], rfl, rfl, by simp, fun _ => .inl rfl⟩
  | within uds => exact key uds hbelow
  | start =>
    have hstart : RdState.rest files fbend ⟨fbstart, 0, 1, []⟩ =
        DirFile.rest files fbstart fbend .start := rest_start files fbend fbstart 1 []
    have hcall := key ⟨fbstart, 0, 1, []⟩ (by rw [hstart]; exact hbelow)
    rw [hstart] at hcall
    exact hcall

/-- At the end of the directory nothing more is given. -/
theorem getdents_dirEof (files : HiddenFiles) (fbstart fbend : Nat) (rooms : List Nat) :
    ∃ outs, getdents reclen files fbstart fbend .dirEof rooms = some (.ok (.dirEof, outs)) := by
  induction rooms with
  | nil => exact ⟨[], rfl⟩
  | cons room rooms ih =>
    obtain ⟨outs, hrest⟩ := ih
    refine ⟨[] :: outs, ?_⟩
    rw [getdents, unionfsReaddir]
    simp only [bind, Option.bind, hrest]

/-- Many calls give the same names as one, and each gives some when there is room for any name. -/
theorem getdents_spec {files : HiddenFiles} (hok : ∀ i e, files i ≠ some (.error e))
    (fbstart fbend : Nat) (file : DirFile) (rooms : List Nat)
    (hbelow : file.offset + (file.rest files fbstart fbend).length + rooms.length ≤ direof) :
    ∃ file' outs, getdents reclen files fbstart fbend file rooms = some (.ok (file', outs)) ∧
      file.rest files fbstart fbend = outs.flatten ++ file'.rest files fbstart fbend ∧
      ((∀ room ∈ rooms, ∀ name ∈ file.rest files fbstart fbend, reclen name ≤ room) →
        file' = .dirEof ∨ rooms.length ≤ outs.flatten.length) := by
  induction rooms generalizing file with
  | nil => exact ⟨file, [], rfl, rfl, fun _ => .inr (le_refl _)⟩
  | cons room rooms ih =>
    rw [List.length_cons] at hbelow
    obtain ⟨file1, names, hcall, hsplit, hcount, hempty⟩ :=
      unionfsReaddir_spec reclen hok fbstart fbend file room (by omega)
    have hbelow1 : file1.offset + (file1.rest files fbstart fbend).length + rooms.length ≤
        direof := by
      rw [hsplit, List.length_append] at hbelow
      omega
    obtain ⟨file', outs, hcalls, hsplit', hcomplete⟩ := ih file1 hbelow1
    refine ⟨file', names :: outs, ?_, ?_, fun hroom => ?_⟩
    · rw [getdents, hcall]
      simp only [bind, Option.bind, hcalls]
    · rw [hsplit, hsplit', List.flatten_cons, List.append_assoc]
    · have hroom1 : ∀ r ∈ rooms, ∀ name ∈ file1.rest files fbstart fbend, reclen name ≤ r :=
        fun r hr name hname => hroom r (List.mem_cons_of_mem room hr) name
          (by rw [hsplit]; exact List.mem_append_right names hname)
      rcases hcomplete hroom1 with heof | hlen
      · exact .inl heof
      · by_cases hnames : names = []
        · rcases hempty hnames with heof | ⟨name, hname, hlong⟩
          · -- at the end there is nothing more to give
            left
            obtain ⟨outs', hrest⟩ := getdents_dirEof reclen files fbstart fbend rooms
            rw [heof, hrest, Option.some.injEq, Except.ok.injEq, Prod.mk.injEq] at hcalls
            exact hcalls.1.symm
          · have hfits := hroom room List.mem_cons_self name hname
            omega
        · right
          have hpos := List.length_pos_iff.mpr hnames
          rw [List.flatten_cons, List.length_append, List.length_cons]
          omega

end

/-! ## Which names -/

/-- A whiteout is remembered and not given. -/
theorem readNames_whiteout {m : Text} (hm : m ≠ []) (bindex : Nat) (nodes : List FilldirNode)
    (l : List Text) :
    readNames bindex nodes (allocWhname m :: l) = readNames bindex
      (if ∃ node ∈ nodes, node.name = m then nodes else nodes ++ [⟨m, bindex, true⟩]) l := by
  simp only [readNames, isWhiteout_allocWhname hm, drop_allocWhname, if_true, List.any_eq_true,
    decide_eq_true_eq]
  split_ifs <;> rfl

/-- A name is given unless it was seen before. -/
theorem readNames_valid {e : Text} (he : isValidname e = true) (bindex : Nat)
    (nodes : List FilldirNode) (l : List Text) :
    readNames bindex nodes (e :: l) =
      if ∃ node ∈ nodes, node.name = e then readNames bindex nodes l
      else ((readNames bindex (nodes ++ [⟨e, bindex, false⟩]) l).1,
        e :: (readNames bindex (nodes ++ [⟨e, bindex, false⟩]) l).2) := by
  simp only [readNames, isWhiteout_of_valid he, Bool.false_eq_true, if_false, List.any_eq_true,
    decide_eq_true_eq]

/-- The names that were seen in a branch, and those that it gives. -/
theorem readNames_spec (bindex : Nat) (nodes : List FilldirNode) {l : List Text} (hl : Listing l) :
    let r := readNames bindex nodes l
    (∀ m, (∃ node ∈ r.1, node.name = m) ↔ (∃ node ∈ nodes, node.name = m) ∨
      isValidname m = true ∧ m ∈ l ∨ m ≠ [] ∧ allocWhname m ∈ l) ∧
    (∀ m, m ∈ r.2 ↔ isValidname m = true ∧ m ∈ l ∧ ¬ ∃ node ∈ nodes, node.name = m) ∧
    r.2.Nodup := by
  induction l generalizing nodes with
  | nil => simp [readNames]
  | cons e l ih =>
    have hl' : Listing l := ⟨fun x hx => hl.names x (List.mem_cons_of_mem e hx),
      fun x hx hv hw => hl.once x (List.mem_cons_of_mem e hx) hv (List.mem_cons_of_mem e hw)⟩
    have hadd : ∀ (name : Text) (w : Bool) (m : Text),
        (∃ node ∈ nodes ++ [⟨name, bindex, w⟩], node.name = m) ↔
          (∃ node ∈ nodes, node.name = m) ∨ name = m := by
      intro name w m
      simp [or_and_right, exists_or]
    rcases hl.names e List.mem_cons_self with hv | ⟨k, hk, hek⟩
    · have hne : ∀ m, allocWhname m ≠ e := fun m => allocWhname_ne_of_isValidname hv
      have hmem : ∀ m, allocWhname m ∈ e :: l ↔ allocWhname m ∈ l := by
        intro m
        simp [hne m]
      rw [readNames_valid hv]
      by_cases hseen : ∃ node ∈ nodes, node.name = e
      · have ⟨hseen', hgiven, honce⟩ := ih nodes hl'
        simp only [if_pos hseen]
        refine ⟨fun m => ?_, fun m => ?_, honce⟩
        · rw [hseen', hmem, List.mem_cons]
          by_cases hm : m = e
          · simp [hm, hseen]
          · simp only [hm, false_or]
        · rw [hgiven, List.mem_cons]
          by_cases hm : m = e
          · simp [hm, hseen]
          · simp only [hm, false_or]
      · have ⟨hseen', hgiven, honce⟩ := ih (nodes ++ [⟨e, bindex, false⟩]) hl'
        simp only [if_neg hseen]
        refine ⟨fun m => ?_, fun m => ?_, List.nodup_cons.mpr ⟨fun h => ?_, honce⟩⟩
        · rw [hseen', hmem, List.mem_cons, hadd]
          by_cases hm : m = e
          · simp [hm, hv]
          · simp only [hm, Ne.symm hm, false_or, or_false]
        · rw [List.mem_cons, hgiven, List.mem_cons, hadd]
          by_cases hm : m = e
          · simp only [hm, hv, hseen, true_or, not_false_eq_true, and_self]
          · simp only [hm, Ne.symm hm, false_or, or_false]
        · exact ((hgiven e).mp h).2.2 ((hadd e false e).mpr (.inr rfl))
    · subst hek
      have hnv : ∀ m, isValidname m = true → m ≠ allocWhname k := fun m hm =>
        (allocWhname_ne_of_isValidname hm).symm
      have hinj : ∀ m, allocWhname m = allocWhname k ↔ m = k := fun m =>
        ⟨allocWhname_injective, fun h => h ▸ rfl⟩
      -- with its whiteout a name is no entry of the branch
      have hkl : isValidname k = true → k ∉ l := fun hv hkl =>
        hl.once k (List.mem_cons_of_mem _ hkl) hv List.mem_cons_self
      rw [readNames_whiteout hk]
      by_cases hseen : ∃ node ∈ nodes, node.name = k
      · have ⟨hseen', hgiven, honce⟩ := ih nodes hl'
        simp only [if_pos hseen]
        refine ⟨fun m => ?_, fun m => ?_, honce⟩
        · rw [hseen', List.mem_cons, List.mem_cons, hinj]
          by_cases hm : m = k
          · simp [hm, hseen]
          · simp only [hm, false_or]
            refine or_congr_right (or_congr_left (and_congr_right fun hv => ?_))
            simp [hnv m hv]
        · rw [hgiven, List.mem_cons]
          exact and_congr_right fun hv => by simp [hnv m hv]
      · have ⟨hseen', hgiven, honce⟩ := ih (nodes ++ [⟨k, bindex, true⟩]) hl'
        simp only [if_neg hseen]
        refine ⟨fun m => ?_, fun m => ?_, honce⟩
        · rw [hseen', List.mem_cons, List.mem_cons, hinj, hadd]
          by_cases hm : m = k
          · simp [hm, hk]
          · simp only [hm, Ne.symm hm, false_or, or_false]
            refine or_congr_right (or_congr_left (and_congr_right fun hv => ?_))
            simp [hnv m hv]
        · rw [hgiven, List.mem_cons, hadd]
          refine and_congr_right fun hv => ?_
          by_cases hm : m = k
          · simp [hm, hkl (hm ▸ hv), hnv k (hm ▸ hv)]
          · simp [hnv m hv, Ne.symm hm]

/-- What shows depends on the listings only. -/
theorem Shows.congr {f g : Nat → List Text} {is : List Nat} {st : List FilldirNode} {m : Text}
    (h : ∀ k ∈ is, f k = g k) (hs : Shows f is st m) : Shows g is st m := by
  have ⟨l, j, r, hsplit, hvalid, hmem, hst, hleft⟩ := hs
  have hsub : ∀ i ∈ l ++ [j], i ∈ is := fun i hi => by
    rw [hsplit, List.append_cons]
    exact List.mem_append_left r hi
  refine ⟨l, j, r, hsplit, hvalid, ?_, hst, fun i hi => ?_⟩
  · rw [← h j (hsub j (by simp))]
    exact hmem
  · rw [← h i (hsub i hi)]
    exact hleft i hi

/-- A name shows in the first branch, or further down when that has no whiteout. -/
theorem shows_cons {list : Nat → List Text} {k : Nat} (hk : Listing (list k)) (is : List Nat)
    (st : List FilldirNode) (m : Text) :
    Shows list (k :: is) st m ↔
      (isValidname m = true ∧ m ∈ list k ∧ ∀ node ∈ st, node.name ≠ m) ∨
        Shows list is st m ∧ allocWhname m ∉ list k := by
  constructor
  · intro ⟨l, j, r, hsplit, hvalid, hmem, hst, hleft⟩
    cases l with
    | nil =>
      rw [List.nil_append, List.cons.injEq] at hsplit
      exact .inl ⟨hvalid, hsplit.1 ▸ hmem, hst⟩
    | cons a l =>
      rw [List.cons_append, List.cons.injEq] at hsplit
      refine .inr ⟨⟨l, j, r, hsplit.2, hvalid, hmem, hst,
        fun i hi => hleft i (List.mem_cons_of_mem a hi)⟩, ?_⟩
      rw [hsplit.1]
      exact hleft a List.mem_cons_self
  · intro h
    rcases h with ⟨hvalid, hmem, hst⟩ | ⟨⟨l, j, r, hsplit, hvalid, hmem, hst, hleft⟩, hw⟩
    · refine ⟨[], k, is, rfl, hvalid, hmem, hst, fun i hi => ?_⟩
      rw [List.nil_append, List.mem_singleton] at hi
      exact hi ▸ hk.once m hmem hvalid
    · refine ⟨k :: l, j, r, by rw [hsplit]; rfl, hvalid, hmem, hst, fun i hi => ?_⟩
      rcases List.mem_cons.mp hi with hi | hi
      · exact hi ▸ hw
      · exact hleft i hi

/-- The branches give the names that show in them, once each. -/
theorem readBranches_spec {files : HiddenFiles} {is : List Nat}
    (his : ∀ k ∈ is, Listing (listing files k)) (nodes : List FilldirNode) :
    (∀ m, m ∈ readBranches files nodes is ↔ Shows (listing files) is nodes m) ∧
      (readBranches files nodes is).Nodup := by
  induction is generalizing nodes with
  | nil =>
    refine ⟨fun m => ⟨fun h => absurd h List.not_mem_nil, fun ⟨l, j, r, h, _⟩ => ?_⟩,
      List.nodup_nil⟩
    simp at h
  | cons k is ih =>
    have hk := his k List.mem_cons_self
    have ⟨hseen, hgiven, honce⟩ := readNames_spec k nodes hk
    have ⟨hshows, honce'⟩ := ih (fun i hi => his i (List.mem_cons_of_mem k hi))
      (readNames k nodes (listing files k)).1
    have hunseen : ∀ {st : List FilldirNode} {m : Text},
        (∀ node ∈ st, node.name ≠ m) ↔ ¬ ∃ node ∈ st, node.name = m := by
      intro st m
      simp
    -- what shows further to the right and was not seen here
    have hright : ∀ m, Shows (listing files) is (readNames k nodes (listing files k)).1 m ↔
        Shows (listing files) is nodes m ∧ m ∉ listing files k ∧
          allocWhname m ∉ listing files k := by
      intro m
      have hw : allocWhname m ∈ listing files k → m ≠ [] := by
        intro hw hm
        rcases hk.names _ hw with hv | ⟨m', hm', heq⟩
        · exact absurd rfl (allocWhname_ne_of_isValidname hv)
        · exact hm' ((allocWhname_injective heq).symm.trans hm)
      constructor
      · intro ⟨l, j, r, hsplit, hvalid, hmem, hst, hleft⟩
        rw [hunseen, hseen] at hst
        push Not at hst
        refine ⟨⟨l, j, r, hsplit, hvalid, hmem, hst.1, hleft⟩, hst.2.1 hvalid, fun h => ?_⟩
        exact hst.2.2 (hw h) h
      · intro ⟨⟨l, j, r, hsplit, hvalid, hmem, hst, hleft⟩, hm, hw⟩
        refine ⟨l, j, r, hsplit, hvalid, hmem, ?_, hleft⟩
        rw [hunseen, hseen]
        push Not
        exact ⟨hst, fun _ => hm, fun _ => hw⟩
    rw [readBranches]
    refine ⟨fun m => ?_, ?_⟩
    · rw [List.mem_append, hgiven, hshows, hright, shows_cons hk, ← hunseen]
      constructor
      · intro h
        exact h.imp id fun h => ⟨h.1, h.2.2⟩
      · intro h
        rcases h with h | ⟨hshow, hw⟩
        · exact .inl h
        · by_cases hm : m ∈ listing files k
          · have ⟨_, _, _, _, hvalid, _, hst, _⟩ := hshow
            exact .inl ⟨hvalid, hm, hst⟩
          · exact .inr ⟨hshow, hm, hw⟩
    · refine List.nodup_append.mpr ⟨honce, honce', fun a ha c hc hac => ?_⟩
      subst hac
      have hnot := ((hright a).mp ((hshows a).mp hc)).2.1
      exact hnot ((hgiven a).mp ha).2.1

/-! ## Directories of a union -/

/-- The open file lists the branches that have the directory. -/
theorem listing_hiddenFiles {s : Stack α} {p : Path} {d : Dentry α} (i : Nat) :
    listing (hiddenFiles s p d) i = if d.hiddenDir i = true then s.list i p else [] := by
  unfold listing hiddenFiles Dentry.hiddenDir
  match d.hidden i with
  | none => rfl
  | some none => rfl
  | some (some (.dir a)) => rfl
  | some (some (.reg a)) => rfl
  | some (some (.other a)) => rfl

/-- Branches without the directory do not count. -/
theorem readBranches_filter {s : Stack α} {p : Path} {d : Dentry α} (nodes : List FilldirNode)
    (is : List Nat) : readBranches (hiddenFiles s p d) nodes is =
      readBranches (hiddenFiles s p d) nodes (is.filter d.hiddenDir) := by
  induction is generalizing nodes with
  | nil => rfl
  | cons i is ih =>
    by_cases hi : d.hiddenDir i = true
    · rw [List.filter_cons_of_pos hi, readBranches, readBranches]
      simp only [ih]
    · rw [List.filter_cons_of_neg hi, ← ih, readBranches, listing_hiddenFiles, if_neg hi]
      rfl

/-- A union of the file system with one file and an empty one shows nothing else. -/
theorem eq_of_unionView_oneFile {m : Text}
    (h : unionView [⟨Tree.empty 0, true, false⟩, ⟨oneFile, false, true⟩] [m] ≠ none) :
    m = ['f'] := by
  obtain ⟨x, hx⟩ := Option.ne_none_iff_exists'.mp h
  obtain ⟨t, ht, hentry⟩ := exists_entry_of_view hx
  have hnode : ∀ c : Tree Nat, t = c.layer → c.node [m] ≠ none := by
    intro c hc hnone
    rw [hc, Tree.layer, layerOf] at hentry
    simp [hnone] at hentry
  rcases List.mem_cons.mp ht with hempty | hone
  · exact absurd (by simp [Tree.empty]) (hnode (Tree.empty 0) hempty)
  · by_contra hne
    refine hnode oneFile (List.mem_singleton.mp hone) ?_
    simp [oneFile, Tree.insert, Tree.empty, hne]

end Kernel
