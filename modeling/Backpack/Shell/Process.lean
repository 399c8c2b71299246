import Mathlib

/-!
# Processes of a shell script

A command changes the files, which all processes share, and the variables of the process
it runs in; `exit` ends that process. A subshell, also the right side of a pipe, works on
a copy of the variables: neither they nor its `exit` reach the script.
-/

namespace Shell

/-- A process between two commands. -/
structure Proc (F V : Type) where
  files : F
  vars : V
  exited : Bool

abbrev Cmd (F V : Type) := Proc F V → Proc F V

variable {F V α : Type}

/-- `exit` -/
def exit : Cmd F V := fun p => { p with exited := true }

/-- `c; d` -/
def seq (c d : Cmd F V) : Cmd F V := fun p => if (c p).exited then c p else d (c p)

/-- `if b; then c; fi` -/
def when (b : Bool) (c : Cmd F V) : Cmd F V := if b then c else id

/-- The body of a loop for one value after the other, until it exits. -/
def forEach (body : α → Cmd F V) : List α → Cmd F V
  | [], p => p
  | a :: as, p => if (body a p).exited then body a p else forEach body as (body a p)

/-- The values for which the loop runs its body. -/
def visited (body : α → Cmd F V) : List α → Proc F V → List α
  | [], _ => []
  | a :: as, p => a :: if (body a p).exited then [] else visited body as (body a p)

/-- `( c )`, or `c` behind a pipe. -/
def subshell (c : Cmd F V) : Cmd F V := fun p => { p with files := (c p).files }

theorem subshell_exited (c : Cmd F V) (p : Proc F V) : (subshell c p).exited = p.exited := rfl

theorem subshell_vars (c : Cmd F V) (p : Proc F V) : (subshell c p).vars = p.vars := rfl

theorem seq_of_not_exited {c d : Cmd F V} {p : Proc F V} (h : (c p).exited = false) :
    seq c d p = d (c p) := by
  simp [seq, h]

/-- A loop that does not exit on `as` goes on with `bs`. -/
theorem forEach_append {body : α → Cmd F V} {as bs : List α} {p : Proc F V}
    (hp : p.exited = false) : forEach body (as ++ bs) p =
      if (forEach body as p).exited then forEach body as p
      else forEach body bs (forEach body as p) := by
  induction as generalizing p with
  | nil => simp [forEach, hp]
  | cons a as ih =>
    rw [List.cons_append, forEach, forEach]
    cases ha : (body a p).exited with
    | true => simp [ha]
    | false => simp [ih ha]

theorem forEach_concat {body : α → Cmd F V} {as : List α} {a : α} {p : Proc F V}
    (h : (forEach body as p).exited = false) (hp : p.exited = false) :
    forEach body (as ++ [a]) p = body a (forEach body as p) := by
  rw [forEach_append hp, h]
  simp only [forEach, Bool.false_eq_true, if_false, ite_self]

/-- What the body keeps, the loop keeps. -/
theorem forEach_induction {body : α → Cmd F V} {P : Proc F V → Prop} {as : List α}
    {p : Proc F V} (hp : P p) (hbody : ∀ a ∈ as, ∀ q, P q → P (body a q)) :
    P (forEach body as p) := by
  induction as generalizing p with
  | nil => exact hp
  | cons a as ih =>
    have hstep : P (body a p) := hbody a List.mem_cons_self p hp
    unfold forEach
    split_ifs
    · exact hstep
    · exact ih hstep fun b hb => hbody b (List.mem_cons_of_mem a hb)

/-- The loop goes through its values in order, up to the one that exits. -/
theorem visited_prefix (body : α → Cmd F V) (as : List α) (p : Proc F V) :
    visited body as p <+: as := by
  induction as generalizing p with
  | nil => exact List.nil_prefix
  | cons a as ih =>
    unfold visited
    refine (List.prefix_cons_inj a).mpr ?_
    split_ifs
    · exact List.nil_prefix
    · exact ih _

/-- A loop that does not exit goes through all of them. -/
theorem visited_of_not_exited {body : α → Cmd F V} {as : List α} {p : Proc F V}
    (h : (forEach body as p).exited = false) : visited body as p = as := by
  induction as generalizing p with
  | nil => rfl
  | cons a as ih =>
    unfold forEach at h
    unfold visited
    split_ifs at h ⊢ with hexit
    · rw [hexit] at h
      exact absurd h (by decide)
    · rw [ih h]

end Shell
