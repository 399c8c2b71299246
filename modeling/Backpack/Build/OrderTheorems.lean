import Backpack.Build.ModuleLoopTheorems
import Backpack.Shell.RegexTheorems

/-!
# Every module list is built once

`order.txt` is completed by an append loop that searches the file with `grep ^$i$` and is
then read with `while read i`. The three agree on what a line is exactly when the file ends
in a newline, the names are plain and no missing name is an operator of `[` or matches another
one as a pattern.
-/

namespace Backpack.Build

open Shell UnionFs

/-- After the loop `order.txt` has its old lines and all lists, and the module loop runs
once for each of them, in the order of the file, unless a module that cannot be packed ends it
before. -/
structure BuiltOnce (lists : List Text) (order : Text) : Prop where
  kept : ∀ l ∈ fileLines order, l ∈ fileLines (completeOrder lists order)
  complete : ∀ n ∈ lists, n ∈ fileLines (completeOrder lists order)
  inOrder : ∀ {α : Type} (env : Env α) (mo : Text → Option (DirTree α)),
    iterations env (completeOrder lists order) mo <+:
      (fileLines (completeOrder lists order)).map listPath
  all : ∀ {α : Type} (env : Env α) (mo : Text → Option (DirTree α)),
    AllPacked env mo (readValues (completeOrder lists order)) →
    iterations env (completeOrder lists order) mo =
      (fileLines (completeOrder lists order)).map listPath
  once : (fileLines (completeOrder lists order)).Perm lists
  idempotent : completeOrder lists (completeOrder lists order) = completeOrder lists order

/-- The lists in `modules/` and the `order.txt` found there: distinct names of lists. -/
structure OrderFile (lists : List Text) (order : Text) : Prop where
  nodup : lists.Nodup
  no_slash : ∀ n ∈ lists, '/' ∉ n
  not_order : orderName ∉ lists
  line : ∀ l ∈ fileLines order, l ∈ lists
  line_nodup : (fileLines order).Nodup

/-- The search, the append and the read loop agree on what a line of `order.txt` is. -/
structure Completable (lists : List Text) (order : Text) : Prop where
  name : ∀ n ∈ lists, ListName n
  terminated : Terminated order
  /-- The test of a missing name is no syntax error. -/
  operand : ∀ n ∈ lists, n ∉ fileLines order → n ≠ "!".toList ∧ n ≠ "(".toList
  /-- `modules/*.txt` does not find hidden lists. -/
  hidden : ∀ n ∈ lists, n.head? = some '.' → n ∈ fileLines order
  /-- A missing name does not match a line of the file as a pattern. -/
  search : ∀ n ∈ lists, n ∉ fileLines order → ∀ l ∈ fileLines order, dotMatch n l = false
  /-- Nor does it match a missing name that is appended before it. -/
  missing : ∀ m ∈ lists, ∀ n ∈ lists, m ∉ fileLines order → n ∉ fileLines order → m ≠ n →
    byteLe (listPath m) (listPath n) = true → dotMatch n m = false

/-! ## The loop over `modules/*.txt` -/

/-- The names in the order in which the loop takes them. -/
def sortedNames (lists : List Text) : List Text :=
  ((orderName :: lists).filter fun n =>
    pathMatch "*.txt".toList (n ++ ".txt".toList)).insertionSort
    fun m n => byteLe (listPath m) (listPath n) = true

/-- The loop over the lists goes by sorted names. -/
theorem listFiles_eq (lists : List Text) : listFiles lists = (sortedNames lists).map listPath := by
  unfold listFiles sortedNames lsSort
  exact (List.map_insertionSort _ (fun s t => byteLe s t = true) listPath _
    fun _ _ _ _ => Iff.rfl).symm

/-- ls gives the lists that are not hidden. -/
theorem pathMatch_list (n : Text) :
    pathMatch "*.txt".toList (n ++ ".txt".toList) = true ↔ n ≠ [] ∧ n.head? ≠ some '.' := by
  have hglob : globMatch "*.txt".toList (n ++ ".txt".toList) = true :=
    (globMatch_many_ordinary (w := ".txt".toList) (by decide)).mpr (List.suffix_append _ _)
  rw [pathMatch, hglob, Bool.true_and]
  cases n with
  | nil => decide
  | cons c n => simp

/-- The names are those of the lists and order itself. -/
theorem mem_sortedNames {lists : List Text} {n : Text} :
    n ∈ sortedNames lists ↔
      (n = orderName ∨ n ∈ lists) ∧ n ≠ [] ∧ n.head? ≠ some '.' := by
  unfold sortedNames
  rw [(List.perm_insertionSort _ _).mem_iff, List.mem_filter, List.mem_cons, pathMatch_list]

/-- No name comes twice. -/
theorem sortedNames_nodup {lists : List Text} (h : lists.Nodup) (ho : orderName ∉ lists) :
    (sortedNames lists).Nodup := by
  unfold sortedNames
  rw [(List.perm_insertionSort _ _).nodup_iff]
  exact (List.nodup_cons.mpr ⟨ho, h⟩).filter _

/-- The names come in the order of their files. -/
theorem sortedNames_pairwise (lists : List Text) :
    (sortedNames lists).Pairwise fun m n => byteLe (listPath m) (listPath n) = true := by
  unfold sortedNames
  have htotal : Std.Total fun m n : Text => byteLe (listPath m) (listPath n) = true :=
    ⟨fun _ _ => byteLe_total _ _⟩
  have htrans : IsTrans Text fun m n => byteLe (listPath m) (listPath n) = true :=
    ⟨fun _ _ _ => byteLe_trans⟩
  exact List.pairwise_insertionSort _ _

/-- The test does not let the name through, whatever the search finds. -/
def Barred (n : Text) : Prop := n = orderName ∨ n = "!".toList ∨ n = "(".toList

instance (n : Text) : Decidable (Barred n) := inferInstanceAs (Decidable (_ ∨ _ ∨ _))

theorem ne_order_of_not_barred {n : Text} (h : ¬ Barred n) : n ≠ orderName := fun ho => h (Or.inl ho)

/-- The search for a name among the lines. -/
def finds (seen : List Text) (n : Text) : Bool := seen.any fun l => dotMatch n l

/-- A name that was read is found. -/
theorem finds_self {seen : List Text} {n : Text} (h : n ∈ seen) : finds seen n = true :=
  List.any_eq_true.mpr ⟨n, h, dotMatch_self n⟩

/-- The names that are appended, when the file has the lines `seen`. -/
def appended : List Text → List Text → List Text
  | _, [] => []
  | seen, n :: ns =>
    if Barred n ∨ finds seen n = true then appended seen ns
    else n :: appended (seen ++ [n]) ns

/-- What is appended comes in the order of the lists. -/
theorem appended_sublist (seen ns : List Text) : (appended seen ns).Sublist ns := by
  induction ns generalizing seen with
  | nil => exact List.Sublist.refl _
  | cons n ns ih =>
    unfold appended
    split_ifs
    · exact (ih seen).cons n
    · exact (ih _).cons_cons n

/-- One turn of the loop for a name that is a single word. -/
theorem addMissing_eq {n : Text} (hn : IsWord n) (hs : '/' ∉ n) (hne : n ≠ [])
    (hecho : isEchoOption n = false) (t : Text) :
    addMissing t (listPath n) =
      if Barred n ∨ finds (fileLines t) n = true then t else t ++ (n ++ ['\n']) := by
  have hord : ∀ c ∈ n, c ∉ ['\\', '[', '*'] := by
    intro c hc
    have h := (hn c hc).2
    simp only [globOrdinary, decide_eq_true_eq, List.mem_cons, List.not_mem_nil, or_false,
      not_or] at h
    simp [h]
  have hfind : noOutput (grep .basic ('^' :: (n ++ ['$'])) t) = !finds (fileLines t) n := by
    rw [← Bool.not_eq_eq_eq_not, Bool.eq_iff_iff, Bool.not_eq_true', noOutput_eq_false_iff, grep]
    simp only [List.mem_filter, grepLine_dots hord, finds, List.any_eq_true]
    constructor
    · rintro ⟨l, h, -⟩
      exact ⟨l, h⟩
    · rintro ⟨l, hl, h⟩
      exact ⟨l, ⟨hl, h⟩, dotMatch_ne_nil hne h⟩
  have hnothing : captured (unlines (grep .basic ('^' :: (n ++ ['$'])) t)) = [] ↔
      ¬ finds (fileLines t) n = true := by
    rw [captured_grep_eq_nil_iff, hfind, Bool.not_eq_true', Bool.not_eq_true]
  have htest : bashTest (fun _ _ => none) (missingOperands t n) = some true ↔
      ¬ (Barred n ∨ finds (fileLines t) n = true) := by
    have hempty : [] ∉ "==".toList :: binaryOps := by decide
    rw [missingOperands, bashTest_compare (Or.inl rfl) (by decide), not_or, ← hnothing, Barred]
    show _ ∧ List.isEmpty _ = true ∧ _ ↔ _
    rw [List.isEmpty_iff]
    constructor
    · rintro ⟨-, hnil, ho, hnot, hparen⟩
      exact ⟨by simp only [ho, hnot, hparen, or_self, not_false_eq_true], hnil⟩
    · rintro ⟨hbar, hnil⟩
      simp only [not_or] at hbar
      exact ⟨by rw [hnil]; exact hempty, hnil, hbar⟩
  rw [addMissing, ListName.listName_listPath hn hs hne, echo_singleton hecho]
  by_cases hbar : Barred n ∨ finds (fileLines t) n = true
  · rw [if_neg (mt htest.mp (not_not.mpr hbar)), if_pos hbar]
  · rw [if_pos (htest.mpr hbar), if_neg hbar]

/-! ## What a run of the loop appends -/

/-- Names that the loop handles one by one. -/
def LoopNames (ns : List Text) : Prop :=
  ∀ n ∈ ns, IsWord n ∧ '/' ∉ n ∧ n ≠ [] ∧ isEchoOption n = false

theorem LoopNames.tail {n : Text} {ns : List Text} (h : LoopNames (n :: ns)) : LoopNames ns :=
  fun m hm => h m (List.mem_cons_of_mem _ hm)

/-- Nothing is appended when every name is found. -/
theorem foldl_addMissing_of_finds {ns : List Text} (hns : LoopNames ns) {t : Text}
    (h : ∀ n ∈ ns, Barred n ∨ finds (fileLines t) n = true) :
    (ns.map listPath).foldl addMissing t = t := by
  induction ns with
  | nil => rfl
  | cons n ns ih =>
    rcases hns n (by simp) with ⟨hw, hs, hne, hecho⟩
    rw [List.map_cons, List.foldl_cons, addMissing_eq hw hs hne hecho, if_pos (h n (by simp))]
    exact ih hns.tail fun m hm => h m (List.mem_cons_of_mem _ hm)

/-- On a terminated file the loop appends lines. -/
theorem foldl_addMissing {ns : List Text} (hns : LoopNames ns) {t : Text} (ht : Terminated t) :
    (ns.map listPath).foldl addMissing t = t ++ unlines (appended (fileLines t) ns) := by
  induction ns generalizing t with
  | nil => simp [appended, unlines]
  | cons n ns ih =>
    rcases hns n (by simp) with ⟨hw, hs, hne, hecho⟩
    rw [List.map_cons, List.foldl_cons, addMissing_eq hw hs hne hecho, appended]
    split_ifs with h
    · exact ih hns.tail ht
    · have hline := pieces_line hw.no_newline
      rw [ih hns.tail (terminated_append ht hline.2), fileLines_append ht,
        fileLines_line hw.no_newline]
      simp [unlines]

/-- On any file: either nothing is appended, or there is a first name that is. -/
theorem foldl_addMissing_first {ns : List Text} (hns : LoopNames ns) {t : Text} :
    (ns.map listPath).foldl addMissing t = t ∨ ∃ pre n post, ns = pre ++ n :: post ∧
      ¬ Barred n ∧ finds (fileLines t) n = false ∧ ∃ xs, xs.Sublist post ∧
        (ns.map listPath).foldl addMissing t = (t ++ (n ++ ['\n'])) ++ unlines xs := by
  induction ns with
  | nil => exact Or.inl rfl
  | cons n ns ih =>
    rcases hns n (by simp) with ⟨hw, hs, hne, hecho⟩
    rw [List.map_cons, List.foldl_cons, addMissing_eq hw hs hne hecho]
    split_ifs with h
    · rcases ih hns.tail with heq | ⟨pre, m, post, rfl, hmo, hm, xs, hxs, heq⟩
      · exact Or.inl heq
      · exact Or.inr ⟨n :: pre, m, post, rfl, hmo, hm, xs, hxs, heq⟩
    · have hterm : Terminated (t ++ (n ++ ['\n'])) := (pieces_append_line t hw.no_newline).2
      rw [not_or] at h
      exact Or.inr ⟨[], n, ns, rfl, h.1, by simpa using h.2,
        appended (fileLines (t ++ (n ++ ['\n']))) ns, appended_sublist _ ns,
        foldl_addMissing hns.tail hterm⟩

/-! ## Completable files -/

/-- When no missing name matches another one, exactly the missing names are appended. -/
theorem appended_eq_filter {seen ns : List Text} (hnodup : ns.Nodup)
    (hseen : ∀ n ∈ ns, ¬ Barred n → n ∉ seen → finds seen n = false)
    (hns : ns.Pairwise fun m n => ¬ Barred m → ¬ Barred n → m ∉ seen →
      n ∉ seen → dotMatch n m = false) :
    appended seen ns = ns.filter fun n => ¬ Barred n ∧ n ∉ seen := by
  induction ns generalizing seen with
  | nil => rfl
  | cons n ns ih =>
    rw [List.nodup_cons] at hnodup
    rw [List.pairwise_cons] at hns
    have htail : ∀ m ∈ ns, ¬ Barred m → m ∉ seen → finds seen m = false :=
      fun m hm => hseen m (List.mem_cons_of_mem _ hm)
    unfold appended
    by_cases ho : Barred n
    · rw [if_pos (Or.inl ho), List.filter_cons_of_neg (by simp [ho])]
      exact ih hnodup.2 htail hns.2
    by_cases hmem : n ∈ seen
    · rw [if_pos (Or.inr (finds_self hmem)), List.filter_cons_of_neg (by simp [hmem])]
      exact ih hnodup.2 htail hns.2
    · have hf : finds seen n = false := hseen n (by simp) ho hmem
      rw [if_neg (by simp [ho, hf]), List.filter_cons_of_pos (by simp [ho, hmem])]
      -- `n` is a line from now on; the names behind it are neither it nor match it
      have hgrow : ∀ m ∈ ns, m ∉ seen → m ∉ seen ++ [n] := by
        intro m hm hms h
        rcases List.mem_append.mp h with h | h
        · exact hms h
        · exact hnodup.1 (List.mem_singleton.mp h ▸ hm)
      rw [ih hnodup.2 ?_ (hns.2.imp ?_)]
      · congr 1
        refine List.filter_congr fun m hm => ?_
        by_cases hms : m ∈ seen
        · simp [hms]
        · have hnew := hgrow m hm hms
          simp [hms, hnew]
      · intro m hm hmo hms
        have hms' : m ∉ seen := fun h => hms (List.mem_append_left _ h)
        have hmn := hns.1 m hm ho hmo hmem hms'
        unfold finds at htail ⊢
        rw [List.any_append, htail m hm hmo hms']
        simpa using hmn
      · intro a b hab hao hbo has hbs
        exact hab hao hbo (fun h => has (List.mem_append_left _ h))
          fun h => hbs (List.mem_append_left _ h)

theorem isEchoOption_eq_false {n : Text} (h : isOption n = false) : isEchoOption n = false := by
  unfold isEchoOption
  split
  · rename_i c cs
    exact absurd h (by simp [isOption])
  · rfl

/-- A list's name is read by the loop as it is. -/
theorem ListName.loop {n : Text} (h : ListName n) :
    IsWord n ∧ '/' ∉ n ∧ n ≠ [] ∧ isEchoOption n = false :=
  ⟨h.word, h.no_slash, h.ne_nil, isEchoOption_eq_false h.not_option⟩

theorem listName_order : ListName orderName :=
  ⟨by decide, by decide, by decide, by decide, by decide⟩

/-- So are the sorted names. -/
theorem loopNames_sortedNames {lists : List Text} (h : ∀ n ∈ lists, ListName n) :
    LoopNames (sortedNames lists) := by
  intro n hn
  rcases (mem_sortedNames.mp hn).1 with rfl | hn
  · exact listName_order.loop
  · exact (h n hn).loop

section
variable {lists : List Text} {order : Text} (hfile : OrderFile lists order)

/-- The lists for the lines of a file, if the module loop comes to all of them. -/
def loopLists (t : Text) : List Text := (readValues t).map loopList

/-- The loop counts its turns. -/
theorem loopLists_zipIdx (t : Text) :
    (readValues t).zipIdx.map (fun x => loopList x.1) = loopLists t := by
  have hcomp : (fun x : Text × ℕ => loopList x.1) = loopList ∘ Prod.fst := rfl
  rw [hcomp, ← List.map_map, List.zipIdx_map_fst, loopLists]

/-- The loop goes through the lines in their order, up to a module that cannot be packed. -/
theorem iterations_prefix {α : Type} (env : Env α) (t : Text) (mo : Text → Option (DirTree α)) :
    iterations env t mo <+: loopLists t := by
  rw [← loopLists_zipIdx]
  exact ( visited_prefix (iteration env) (readValues t).zipIdx (atLoop mo)).map _

/-- When all modules are packed, there is a turn for each line. -/
theorem iterations_eq {α : Type} {env : Env α} {t : Text} {mo : Text → Option (DirTree α)}
    (h : AllPacked env mo (readValues t)) : iterations env t mo = loopLists t := by
  rw [iterations, visited_of_not_exited (run_goesWell h).exited, loopLists_zipIdx]

/-- The lines of a file whose lines are names of lists. -/
theorem loopLists_eq {t : Text} (ht : Terminated t) (h : ∀ l ∈ fileLines t, ListName l) :
    loopLists t = (fileLines t).map listPath := by
  have hlines := fileLines_of_terminated ht
  have hread : readValues t = readLines t := by
    apply readValues_eq_readLines
    · intro hb
      rcases mem_fileLines_of_mem hb with hnl | ⟨l, hl, hc⟩
      · exact absurd hnl (by decide)
      · exact (h l hl).word.no_backslash hc
    · intro l hl
      exact (h l (hlines ▸ hl)).word.noBlank
  unfold loopLists
  rw [hread, hlines]
  refine List.map_congr_left fun l hl => ?_
  rw [loopList, ListName.listName_eq (h l (hlines ▸ hl))]

include hfile in
/-- The completed file: the old lines and, behind them, the lists that were missing. -/
theorem Completable.completeOrder_eq (h : Completable lists order) :
    completeOrder lists order = order ++ unlines ((sortedNames lists).filter fun n =>
      ¬ Barred n ∧ n ∉ fileLines order) := by
  have hlist : ∀ n ∈ sortedNames lists, n ≠ orderName → n ∈ lists := by
    intro n hn ho
    exact (mem_sortedNames.mp hn).1.resolve_left ho
  have hnodup := sortedNames_nodup hfile.nodup hfile.not_order
  unfold completeOrder
  rw [listFiles_eq, foldl_addMissing (loopNames_sortedNames h.name) h.terminated,
    appended_eq_filter hnodup]
  · intro n hn ho hmem
    unfold finds
    rw [List.any_eq_false]
    intro l hl
    simp [h.search n (hlist n hn (ne_order_of_not_barred ho)) hmem l hl]
  · refine ((sortedNames_pairwise lists).and hnodup).imp_of_mem ?_
    intro m n hm hn hmn hmo hno hms hns
    exact h.missing m (hlist m hm (ne_order_of_not_barred hmo)) n
      (hlist n hn (ne_order_of_not_barred hno)) hms hns hmn.2 hmn.1

include hfile in
/-- What a completed order has: the lists once each, and its own lines first. -/
theorem Completable.lines (h : Completable lists order) :
    Terminated (completeOrder lists order) ∧
      (fileLines (completeOrder lists order)).Perm lists ∧
      fileLines order <+: fileLines (completeOrder lists order) := by
  have hword : ∀ n ∈ (sortedNames lists).filter (fun n => ¬ Barred n ∧
      n ∉ fileLines order), '\n' ∉ n := by
    intro n hn
    exact (loopNames_sortedNames h.name n (List.mem_of_mem_filter hn)).1.no_newline
  have hlines : fileLines (completeOrder lists order) = fileLines order ++
      (sortedNames lists).filter fun n => ¬ Barred n ∧ n ∉ fileLines order := by
    rw [h.completeOrder_eq hfile, fileLines_append h.terminated, fileLines_unlines hword]
  refine ⟨?_, ?_, ?_⟩
  · rw [h.completeOrder_eq hfile]
    exact terminated_append h.terminated (pieces_unlines hword).2
  · have hnodup := sortedNames_nodup hfile.nodup hfile.not_order
    rw [hlines, List.perm_ext_iff_of_nodup _ hfile.nodup]
    · intro n
      simp only [List.mem_append, List.mem_filter, mem_sortedNames, decide_eq_true_eq]
      constructor
      · rintro (hn | ⟨⟨hn, -⟩, ho, -⟩)
        · exact hfile.line n hn
        · exact hn.resolve_left (ne_order_of_not_barred ho)
      · intro hn
        by_cases hmem : n ∈ fileLines order
        · exact Or.inl hmem
        · have ho : ¬ Barred n := by
            rintro (ho | ho)
            · exact hfile.not_order (ho ▸ hn)
            · exact absurd ho (not_or.mpr (h.operand n hn hmem))
          exact Or.inr ⟨⟨Or.inr hn, (h.name n hn).ne_nil, fun hdot => hmem (h.hidden n hn hdot)⟩,
            ho, hmem⟩
    · refine List.nodup_append.mpr ⟨hfile.line_nodup, hnodup.filter _, ?_⟩
      rintro l hl n hn rfl
      have hfilter := (List.mem_filter.mp hn).2
      simp only [decide_eq_true_eq] at hfilter
      exact hfilter.2 hl
  · rw [hlines]
    exact List.prefix_append _ _

include hfile in
/-- Then each module is built once. -/
theorem Completable.builtOnce (h : Completable lists order) : BuiltOnce lists order := by
  rcases h.lines hfile with ⟨hterm, hperm, hprefix⟩
  have hname : ∀ l ∈ fileLines (completeOrder lists order), ListName l := fun l hl =>
    h.name l (hperm.mem_iff.mp hl)
  have hloop := loopLists_eq hterm hname
  refine ⟨fun l hl => hprefix.mem hl, fun n hn => hperm.mem_iff.mpr hn, fun env mo => ?_,
    fun env mo hall => ?_, hperm, ?_⟩
  · rw [← hloop]
    exact iterations_prefix env _ mo
  · rw [iterations_eq hall, hloop]
  · show (listFiles lists).foldl addMissing _ = _
    rw [listFiles_eq]
    refine foldl_addMissing_of_finds (loopNames_sortedNames h.name) fun n hn => ?_
    rcases (mem_sortedNames.mp hn).1 with ho | hn
    · exact Or.inl (Or.inl ho)
    · exact Or.inr (finds_self (hperm.mem_iff.mpr hn))

/-! ## Files that are completed as they should -/

/-- What is appended is not barred. -/
theorem not_barred_of_mem_appended {seen ns : List Text} {n : Text} (h : n ∈ appended seen ns) :
    ¬ Barred n := by
  induction ns generalizing seen with
  | nil => exact absurd h List.not_mem_nil
  | cons m ns ih =>
    unfold appended at h
    split_ifs at h with hm
    · exact ih h
    · rcases List.mem_cons.mp h with rfl | h
      · exact fun hbar => hm (Or.inl hbar)
      · exact ih h

/-- A name is appended in its turn, when no earlier line matches. -/
theorem appended_turn {seen ns : List Text} {n : Text} (hnodup : ns.Nodup)
    (h : n ∈ appended seen ns) : ∃ pre post, ns = pre ++ n :: post ∧
      (∀ l ∈ seen, dotMatch n l = false) ∧
      ∀ m ∈ pre, m ∈ appended seen ns → dotMatch n m = false := by
  induction ns generalizing seen with
  | nil => exact absurd h List.not_mem_nil
  | cons m ns ih =>
    rw [List.nodup_cons] at hnodup
    unfold appended at h ⊢
    split_ifs at h ⊢ with hm
    · rcases ih hnodup.2 h with ⟨pre, post, rfl, hseen, hpre⟩
      refine ⟨m :: pre, post, rfl, hseen, fun k hk hka => ?_⟩
      rcases List.mem_cons.mp hk with rfl | hk
      · exact absurd ((appended_sublist seen _).subset hka) hnodup.1
      · exact hpre k hk hka
    · rw [not_or] at hm
      rcases List.mem_cons.mp h with rfl | h
      · have hall : ∀ l ∈ seen, dotMatch n l = false := by
          have hf : finds seen n = false := by simpa using hm.2
          unfold finds at hf
          simpa using hf
        exact ⟨[], ns, rfl, hall, fun k hk => absurd hk List.not_mem_nil⟩
      · rcases ih hnodup.2 h with ⟨pre, post, rfl, hseen, hpre⟩
        refine ⟨m :: pre, post, rfl, fun l hl => hseen l (List.mem_append_left _ hl), ?_⟩
        intro k hk hka
        rcases List.mem_cons.mp hk with rfl | hkpre
        · exact hseen k (List.mem_append_right _ (List.mem_singleton_self k))
        · rcases List.mem_cons.mp hka with rfl | hka
          · exact absurd (List.mem_append_left _ hkpre) hnodup.1
          · exact hpre k hkpre hka

namespace BuiltOnce

variable (h : BuiltOnce lists order)

include h in
/-- When `mksquashfs` never fails the loop comes to every line. -/
theorem loopLists_eq_lines : loopLists (completeOrder lists order) =
    (fileLines (completeOrder lists order)).map listPath := by
  have hpacked : ∀ lines, AllPacked (⟨false, fun _ _ _ => [], fun _ => true, fun _ => true, true⟩ :
      Env Unit) (fun _ => none) lines := fun _ _ _ _ _ hfail => absurd hfail (by simp)
  rw [← iterations_eq (hpacked _)]
  exact h.all _ _ (hpacked _)

include h hfile in
/-- The module loop reads every line, so the last one ends in a newline and all names pass
through `basename` unchanged. -/
theorem terminated_and_names (hglob : ∀ n ∈ lists, ∀ c ∈ n, globOrdinary c = true) :
    Terminated (completeOrder lists order) ∧ ∀ n ∈ lists, ListName n := by
  have hperm := h.once
  have hslash : '\\' ∉ completeOrder lists order := by
    intro hb
    rcases mem_fileLines_of_mem hb with hnl | ⟨l, hl, hc⟩
    · exact absurd hnl (by decide)
    · exact absurd (hglob l (hperm.mem_iff.mp hl) _ hc) (by decide)
  have hread : readValues (completeOrder lists order) =
      (readLines (completeOrder lists order)).map trim := by
    unfold readValues readLines
    rw [readFrom_of_no_backslash hslash]
    cases (completeOrder lists order).splitOn '\n' <;> simp
  have hmap : (readLines (completeOrder lists order)).map (fun l => listName (trim l)) =
      fileLines (completeOrder lists order) := by
    have hinj : Function.Injective listPath := fun _ _ => ListName.listPath_injective
    apply hinj.list_map
    rw [← h.loopLists_eq_lines, loopLists, hread, List.map_map, List.map_map]
    rfl
  have hterm : Terminated (completeOrder lists order) := by
    by_contra hnot
    have hlen := congrArg List.length hmap
    rw [fileLines_of_not_terminated hnot] at hlen
    simp at hlen
  refine ⟨hterm, fun n hn => ?_⟩
  rw [fileLines_of_terminated hterm] at hmap hperm
  have hfix : listName (trim n) = n := by
    have hid : (readLines (completeOrder lists order)).map (fun l => listName (trim l)) =
        (readLines (completeOrder lists order)).map id := by rw [hmap, List.map_id]
    exact List.map_inj_left.mp hid n (hperm.mem_iff.mpr hn)
  exact ListName.of_listName_trim (hfile.no_slash n hn) (hglob n hn) hfix

include h hfile in
/-- The order itself ends its last line. -/
theorem terminated (hname : ∀ n ∈ lists, ListName n)
    (hterm : Terminated (completeOrder lists order)) : Terminated order := by
  have hloop := loopNames_sortedNames hname
  have hnodup := sortedNames_nodup hfile.nodup hfile.not_order
  have heq : completeOrder lists order =
      ((sortedNames lists).map listPath).foldl addMissing order := by
    unfold completeOrder
    rw [listFiles_eq]
  by_contra hnot
  rcases @foldl_addMissing_first _ hloop order with hsame | ⟨pre, n, post, hns, hno, hfind, xs,
    hxs, hfirst⟩
  · rw [heq, hsame] at hterm
    exact hnot hterm
  have hn : n ∈ sortedNames lists := by simp [hns]
  have hmem : n ∈ fileLines (completeOrder lists order) :=
    h.complete n ((mem_sortedNames.mp hn).1.resolve_left (ne_order_of_not_barred hno))
  have hxsmem : ∀ x ∈ xs, x ∈ sortedNames lists := by
    intro x hx
    rw [hns]
    exact List.mem_append_right _ (List.mem_cons_of_mem _ (hxs.subset hx))
  have hline := pieces_append_line order (hloop n hn).1.no_newline
  rw [heq, hfirst, fileLines_append hline.2, fileLines_of_terminated hline.2, hline.1,
    fileLines_unlines fun x hx => (hloop x (hxsmem x hx)).1.no_newline] at hmem
  rcases List.mem_append.mp hmem with hmem | hmem
  · rcases List.mem_append.mp hmem with hmem | hmem
    · -- the search would have found it
      have hself : finds (fileLines order) n = true := finds_self (List.mem_append_left _ hmem)
      rw [hfind] at hself
      exact absurd hself (by decide)
    · exact hnot (List.self_eq_append_left.mp (List.mem_singleton.mp hmem))
  · rw [hns] at hnodup
    exact (List.nodup_cons.mp (List.nodup_append.mp hnodup).2.1).1 (hxs.subset hmem)

include h hfile in
/-- When each module is built once, the order was one that can be completed. -/
theorem completable (hglob : ∀ n ∈ lists, ∀ c ∈ n, globOrdinary c = true) :
    Completable lists order := by
  rcases h.terminated_and_names hfile hglob with ⟨hdone, hname⟩
  have hterm := h.terminated hfile hname hdone
  have hloop := loopNames_sortedNames hname
  have hnodup := sortedNames_nodup hfile.nodup hfile.not_order
  have hmissing : ∀ n ∈ lists, n ∉ fileLines order →
      n ∈ appended (fileLines order) (sortedNames lists) := by
    intro n hn hnot
    have hmem := h.complete n hn
    have heq : completeOrder lists order =
        order ++ unlines (appended (fileLines order) (sortedNames lists)) := by
      unfold completeOrder
      rw [listFiles_eq, foldl_addMissing hloop hterm]
    rw [heq, fileLines_append hterm, fileLines_unlines fun x hx =>
      (hloop x ((appended_sublist _ _).subset hx)).1.no_newline] at hmem
    exact (List.mem_append.mp hmem).resolve_left hnot
  refine ⟨hname, hterm, ?_, ?_, ?_, ?_⟩
  · intro n hn hnot
    have hbar := not_barred_of_mem_appended (hmissing n hn hnot)
    exact ⟨fun h => hbar (Or.inr (Or.inl h)), fun h => hbar (Or.inr (Or.inr h))⟩
  · intro n hn hdot
    by_contra hnot
    exact (mem_sortedNames.mp ((appended_sublist _ _).subset (hmissing n hn hnot))).2.2 hdot
  · intro n hn hnot l hl
    rcases appended_turn hnodup (hmissing n hn hnot) with ⟨pre, post, -, hseen, -⟩
    exact hseen l hl
  · intro m hm n hn hmnot hnnot hmn hle
    rcases appended_turn hnodup (hmissing n hn hnnot) with ⟨pre, post, hns, -, hpre⟩
    refine hpre m ?_ (hmissing m hm hmnot)
    have hmem : m ∈ pre ++ n :: post := hns ▸ (appended_sublist _ _).subset (hmissing m hm hmnot)
    rcases List.mem_append.mp hmem with hmem | hmem
    · exact hmem
    · -- behind `n` in the order of `modules/*.txt`, so it is `n`
      have hsorted := sortedNames_pairwise lists
      rw [hns] at hsorted
      rcases List.mem_cons.mp hmem with hmem | hmem
      · exact absurd hmem hmn
      · have hge := (List.pairwise_cons.mp (List.pairwise_append.mp hsorted).2.1).1 m hmem
        exact absurd (ListName.listPath_injective (byteLe_antisymm hle hge)) hmn

end BuiltOnce

include hfile in
/-- The completion and the module loop treat every list once exactly for the completable
files. Names with pattern characters are expanded against the working directory, so for
them only the one direction is stated. -/
theorem builtOnce_iff_completable :
    (Completable lists order → BuiltOnce lists order) ∧
      ((∀ n ∈ lists, ∀ c ∈ n, globOrdinary c = true) → BuiltOnce lists order →
        Completable lists order) :=
  ⟨fun h => h.builtOnce hfile, fun hglob h => h.completable hfile hglob⟩

end

/-! ## An unterminated last line -/

def baseAndKde : List Text := ["base".toList, "kde".toList]

theorem baseAndKde_orderFile {order : Text} (h : fileLines order = ["base".toList]) :
    OrderFile baseAndKde order :=
  ⟨by decide, by decide, by decide, by rw [h]; decide, by rw [h]; decide⟩

theorem baseAndKde_completable : Completable baseAndKde "base\n".toList := by
  have hlines : fileLines "base\n".toList = ["base".toList] := by decide
  have hname : ∀ n ∈ baseAndKde, ListName n := by
    intro n hn
    have hdec : IsWord n ∧ '/' ∉ n ∧ isOption n = false ∧ stripSuffix ".txt".toList n = n ∧
        n ≠ [] := by
      revert n
      decide
    exact ⟨hdec.1, hdec.2.1, hdec.2.2.1, hdec.2.2.2.1, hdec.2.2.2.2⟩
  refine ⟨hname, by decide, by decide, by decide, ?_, ?_⟩
  · rw [hlines]
    decide
  · rw [hlines]
    decide

/-- Only `kde` is missing, and the module loop runs for `base` and `kde`. -/
theorem baseAndKde_builtOnce : BuiltOnce baseAndKde "base\n".toList :=
  (builtOnce_iff_completable (baseAndKde_orderFile (by decide))).1 baseAndKde_completable

/-- Without a newline after `base` the loop makes the line `basekde` of it. -/
theorem not_builtOnce_of_unterminated :
    ¬ ∀ lists order, OrderFile lists order → BuiltOnce lists order := by
  intro h
  have hkept := (h baseAndKde "base".toList (baseAndKde_orderFile (by decide))).kept
    "base".toList (by decide)
  have hlines : fileLines (completeOrder baseAndKde "base".toList) = ["basekde".toList] := by
    decide
  rw [hlines] at hkept
  exact absurd hkept (by decide)

end Backpack.Build
