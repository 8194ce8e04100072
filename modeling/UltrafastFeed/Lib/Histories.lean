import Mathlib.Logic.Function.Basic
import UltrafastFeed.Lib.Run

/-!
# Histories — calls that take effect at once

A history is the sequence of the calls that the processes `P` make and of
what they return. It is linearizable for a sequential object `spec` if
each call can be thought to take effect at one moment between its
beginning and its return: if the object of which every call does, can
show the history (`Runs`). Calls of different processes may overlap in
any way; a call that has not returned may have taken effect or not.

A machine whose every step is matched by moves of that object has
linearizable histories (`runs_of_simulates`).
-/

namespace Lib.Histories

open Lib.Run Function

inductive Event (P Op Res : Type) where
  | call (p : P) (op : Op)
  | ret (p : P) (res : Res)
  deriving DecidableEq, Repr

/-! ## What a machine shows -/

section Machine

variable {S A E : Type} {step : S → A → Option S} {emit : A → S → List E}

/-- What a machine shows along a run; a step `a` into `t` shows
`emit a t`. -/
def history (step : S → A → Option S) (emit : A → S → List E) : S → List A → List E
  | _, [] => []
  | s, a :: as =>
      match step s a with
      | some t => emit a t ++ history step emit t as
      | none => []

theorem history_cons {s t : S} {a : A} {as : List A} (ht : step s a = some t) :
    history step emit s (a :: as) = emit a t ++ history step emit t as := by
  rw [history, ht]

end Machine

/-! ## The object -/

/-- `spec q p op res q'`: on `q` the call `op` of process `p` may return
`res` and leave `q'`. -/
abbrev Spec (P Op Res Q : Type) := Q → P → Op → Res → Q → Prop

/-- Where a process is: outside, in a call that has not taken effect, or
in one that has and will return `res`. -/
inductive Phase (Op Res : Type) where
  | idle
  | called (op : Op)
  | took (res : Res)

structure Atomic (P Op Res Q : Type) where
  val : Q
  phase : P → Phase Op Res

variable {P Op Res Q : Type} [DecidableEq P]

/-- The object shows the history on its way from the one state to the
other. -/
inductive Runs (spec : Spec P Op Res Q) :
    Atomic P Op Res Q → List (Event P Op Res) → Atomic P Op Res Q → Prop where
  | refl (a : Atomic P Op Res Q) : Runs spec a [] a
  | call {a a' : Atomic P Op Res Q} {h : List (Event P Op Res)} {p : P} {op : Op}
      (hidle : a.phase p = .idle) (hrest : Runs spec ⟨a.val, update a.phase p (.called op)⟩ h a') :
      Runs spec a (.call p op :: h) a'
  | take {a a' : Atomic P Op Res Q} {h : List (Event P Op Res)} {p : P} {op : Op} {res : Res}
      {q : Q} (hcalled : a.phase p = .called op) (hspec : spec a.val p op res q)
      (hrest : Runs spec ⟨q, update a.phase p (.took res)⟩ h a') : Runs spec a h a'
  | ret {a a' : Atomic P Op Res Q} {h : List (Event P Op Res)} {p : P} {res : Res}
      (htook : a.phase p = .took res) (hrest : Runs spec ⟨a.val, update a.phase p .idle⟩ h a') :
      Runs spec a (.ret p res :: h) a'

def Linearizable (spec : Spec P Op Res Q) (q : Q) (h : List (Event P Op Res)) : Prop :=
  ∃ a, Runs spec ⟨q, fun _ => .idle⟩ h a

variable {spec : Spec P Op Res Q} {a b d : Atomic P Op Res Q} {h k : List (Event P Op Res)}
  {p : P} {op : Op} {res : Res} {q : Q}

theorem Runs.append (hab : Runs spec a h b) (hbd : Runs spec b k d) : Runs spec a (h ++ k) d := by
  induction hab with
  | refl => exact hbd
  | call hidle _ ih => exact .call hidle (ih hbd)
  | take hcalled hspec _ ih => exact .take hcalled hspec (ih hbd)
  | ret htook _ ih => exact .ret htook (ih hbd)

/-- What a stricter object shows. -/
theorem Runs.mono {spec' : Spec P Op Res Q}
    (himp : ∀ q p op res q', spec q p op res q' → spec' q p op res q') (h : Runs spec a k b) :
    Runs spec' a k b := by
  induction h with
  | refl => exact .refl _
  | call hidle _ ih => exact .call hidle ih
  | take hcalled hspec _ ih => exact .take hcalled (himp _ _ _ _ _ hspec) ih
  | ret htook _ ih => exact .ret htook ih

/-- A call begins. -/
theorem Runs.calls (hidle : a.phase p = .idle) :
    Runs spec a [.call p op] ⟨a.val, update a.phase p (.called op)⟩ :=
  .call hidle (.refl _)

/-- A call takes effect as it returns. -/
theorem Runs.returns (hcalled : a.phase p = .called op) (hspec : spec a.val p op res q) :
    Runs spec a [.ret p res] ⟨q, update a.phase p .idle⟩ := by
  refine .take hcalled hspec (.ret (update_self ..) ?_)
  rw [update_idem]
  exact .refl _

/-- A call that is one step. -/
theorem Runs.asks (hidle : a.phase p = .idle) (hspec : spec a.val p op res a.val) :
    Runs spec a [.call p op, .ret p res] a := by
  have hreturns : Runs spec ⟨a.val, update a.phase p (.called op)⟩ [.ret p res]
      ⟨a.val, update (update a.phase p (.called op)) p .idle⟩ :=
    .returns (update_self ..) hspec
  rw [update_idem, ← hidle, update_eq_self] at hreturns
  exact (Runs.calls hidle).append hreturns

/-- **Simulation.** `abs` maps the states of the machine to those of the
object; every step from a state with the invariant shows what the object
can show between the images. -/
theorem runs_of_simulates {S A : Type} {step : S → A → Option S}
    {emit : A → S → List (Event P Op Res)} {abs : S → Atomic P Op Res Q} {I : S → Prop}
    {C : S → A → Prop} (hinv : ∀ s a t, I s → step s a = some t → I t)
    (hsim : ∀ s a t, I s → C s a → step s a = some t → Runs spec (abs s) (emit a t) (abs t))
    {s t : S} {as : List A} (hI : I s) (hmeets : Meets step C s as)
    (hrun : run step s as = some t) : Runs spec (abs s) (history step emit s as) (abs t) := by
  induction as generalizing s with
  | nil =>
      rw [run_nil] at hrun
      cases hrun
      exact .refl _
  | cons a as ih =>
      obtain ⟨u, hu, hrest⟩ := run_cons.mp hrun
      obtain ⟨hC, hmeets⟩ := (meets_cons hu).mp hmeets
      rw [history_cons hu]
      exact (hsim s a u hI hC hu).append (ih (hinv s a u hI hu) hmeets hrest)

end Lib.Histories
