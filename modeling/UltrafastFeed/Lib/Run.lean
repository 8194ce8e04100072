import Mathlib.Logic.Basic
import Mathlib.Tactic.Common

/-!
# Run — finite runs of a partial step function

A system is an executable step function `step : σ → Λ → Option σ`: the
label names which party moves and how every free choice of that move is
resolved, and `none` says that the label is not enabled. An interleaving
is then a LIST of labels, so "for every interleaving" is "for every
list", and a concrete interleaving can be evaluated.

The rules below are the only inductions over runs in the development:
an invariant is an initial case and a step case, and a conditional
invariant carries a condition on each step.
-/

namespace Lib.Run

variable {σ Λ : Type}

/-- The state after the labels `as`, `none` if one of them is not enabled. -/
def run (step : σ → Λ → Option σ) : σ → List Λ → Option σ
  | s, [] => some s
  | s, a :: as => (step s a).bind fun t => run step t as

/-- What the steps of a run return, in order; `ret a t` is what the step
`a` into the state `t` returns. -/
def collect {β : Type} (step : σ → Λ → Option σ) (ret : Λ → σ → Option β) :
    σ → List Λ → List β
  | _, [] => []
  | s, a :: as =>
      match step s a with
      | none => []
      | some t => (ret a t).toList ++ collect step ret t as

/-- Some run leads from `s₀` to `s`. -/
def Reachable (step : σ → Λ → Option σ) (s₀ s : σ) : Prop :=
  ∃ as, run step s₀ as = some s

/-- Every step of the run `as` from `s` meets `C`, a condition on the
label and on the state BEFORE the step. -/
def Meets (step : σ → Λ → Option σ) (C : σ → Λ → Prop) : σ → List Λ → Prop
  | _, [] => True
  | s, a :: as => C s a ∧ ∀ t, step s a = some t → Meets step C t as

variable {step : σ → Λ → Option σ} {C : σ → Λ → Prop} {I : σ → Prop}

@[simp] theorem run_nil (s : σ) : run step s [] = some s := rfl

theorem run_cons {s u : σ} {a : Λ} {as : List Λ} :
    run step s (a :: as) = some u ↔
      ∃ t, step s a = some t ∧ run step t as = some u := by
  rw [run, Option.bind_eq_some_iff]

theorem run_append {s u : σ} {as bs : List Λ} :
    run step s (as ++ bs) = some u ↔
      ∃ t, run step s as = some t ∧ run step t bs = some u := by
  induction as generalizing s with
  | nil => simp
  | cons a as ih =>
      rw [List.cons_append, run_cons]
      constructor
      · rintro ⟨t, ht, hu⟩
        obtain ⟨v, hv, hu⟩ := ih.mp hu
        exact ⟨v, run_cons.mpr ⟨t, ht, hv⟩, hu⟩
      · rintro ⟨v, hv, hu⟩
        obtain ⟨t, ht, hv⟩ := run_cons.mp hv
        exact ⟨t, ht, ih.mpr ⟨v, hv, hu⟩⟩

/-- The rest of a run whose first part is known. -/
theorem run_rest {s t u : σ} {as bs : List Λ} (h : run step s as = some t)
    (hall : run step s (as ++ bs) = some u) : run step t bs = some u := by
  obtain ⟨t', ht', hu⟩ := run_append.mp hall
  rw [h] at ht'
  cases ht'
  exact hu

theorem Reachable.refl (s : σ) : Reachable step s s := ⟨[], rfl⟩

theorem Reachable.trans_run {s₀ s t : σ} {as : List Λ}
    (h : Reachable step s₀ s) (ht : run step s as = some t) :
    Reachable step s₀ t := by
  obtain ⟨bs, hbs⟩ := h
  exact ⟨bs ++ as, run_append.mpr ⟨s, hbs, ht⟩⟩

theorem Reachable.trans {s₀ s t : σ} (h : Reachable step s₀ s) (ht : Reachable step s t) :
    Reachable step s₀ t := by
  obtain ⟨as, has⟩ := ht
  exact h.trans_run has

theorem Reachable.trans_step {s₀ s t : σ} {a : Λ}
    (h : Reachable step s₀ s) (ht : step s a = some t) : Reachable step s₀ t :=
  h.trans_run (run_cons.mpr ⟨t, ht, run_nil t⟩)

theorem collect_cons {β : Type} {ret : Λ → σ → Option β} {s t : σ} {a : Λ} {as : List Λ}
    (ht : step s a = some t) :
    collect step ret s (a :: as) = (ret a t).toList ++ collect step ret t as := by
  simp only [collect, ht]

/-- What one step does to a party's credit, the number of calls it can
still count on: a call that succeeds spends one, a call can fail only
when there is none, and no other step takes any away. -/
def Spends (credit : σ → Nat) (s t : σ) : Option Bool → Prop
  | none => credit s ≤ credit t
  | some true => credit s ≤ credit t + 1
  | some false => credit s = 0

section Credit

variable {credit : σ → Nat} {ret : Λ → σ → Option Bool}

/-- **Credit is honoured**: of the calls that return after `s`, whoever
moves in between, the first `credit s` succeed, and one that is still to
return finds credit left. -/
theorem collect_credit {s u : σ} {n : Nat} {as : List Λ}
    (h : run step s as = some u) (hn : n ≤ credit s) (h₀ : I s)
    (hI : ∀ s a t, I s → step s a = some t → I t)
    (hspend : ∀ s a t, I s → step s a = some t → Spends credit s t (ret a t)) :
    (∀ ok ∈ (collect step ret s as).take n, ok = true) ∧
      ((collect step ret s as).length < n → 0 < credit u) := by
  induction as generalizing s n with
  | nil =>
      rw [run_nil] at h
      cases h
      refine ⟨fun ok hok => ?_, fun hlt => Nat.lt_of_lt_of_le hlt hn⟩
      rw [collect, List.take_nil] at hok
      cases hok
  | cons a as ih =>
      obtain ⟨t, ht, h⟩ := run_cons.mp h
      have hs := hspend s a t h₀ ht
      have ht₀ := hI s a t h₀ ht
      rw [collect_cons ht]
      cases hr : ret a t with
      | none =>
          rw [hr] at hs
          exact ih h (Nat.le_trans hn hs) ht₀
      | some ok =>
          cases n with
          | zero => exact ⟨fun ok hok => by simp at hok, fun hlt => absurd hlt (Nat.not_lt_zero _)⟩
          | succ n =>
              cases ok with
              | false =>
                  rw [hr] at hs
                  have hnone : credit s = 0 := hs
                  omega
              | true =>
                  rw [hr] at hs
                  have hspent : credit s ≤ credit t + 1 := hs
                  obtain ⟨hall, hleft⟩ := ih (n := n) h (by omega) ht₀
                  refine ⟨fun ok hok => ?_, fun hlt => hleft ?_⟩
                  · rcases List.mem_cons.mp hok with rfl | hok
                    · rfl
                    · exact hall ok hok
                  · exact Nat.lt_of_succ_lt_succ hlt

end Credit

theorem meets_append {s t : σ} {as bs : List Λ}
    (h : Meets step C s (as ++ bs)) (ht : run step s as = some t) :
    Meets step C t bs := by
  induction as generalizing s with
  | nil =>
      rw [run_nil] at ht
      cases ht
      exact h
  | cons a as ih =>
      obtain ⟨u, hu, ht⟩ := run_cons.mp ht
      exact ih (h.2 u hu) ht

theorem Meets.left {s : σ} {as bs : List Λ} (h : Meets step C s (as ++ bs)) :
    Meets step C s as := by
  induction as generalizing s with
  | nil => trivial
  | cons a as ih => exact ⟨h.1, fun t ht => ih (h.2 t ht)⟩

theorem Meets.append {s : σ} {as bs : List Λ} (h : Meets step C s as)
    (hbs : ∀ t, run step s as = some t → Meets step C t bs) : Meets step C s (as ++ bs) := by
  induction as generalizing s with
  | nil => exact hbs s rfl
  | cons a as ih =>
      refine ⟨h.1, fun u hu => ih (h.2 u hu) fun t ht => ?_⟩
      exact hbs t (run_cons.mpr ⟨u, hu, ht⟩)

theorem meets_cons {s t : σ} {a : Λ} {as : List Λ} (ht : step s a = some t) :
    Meets step C s (a :: as) ↔ C s a ∧ Meets step C t as := by
  rw [Meets]
  constructor
  · rintro ⟨hC, hrest⟩
    exact ⟨hC, hrest t ht⟩
  · rintro ⟨hC, hrest⟩
    refine ⟨hC, fun u hu => ?_⟩
    rw [ht] at hu
    cases hu
    exact hrest

theorem meets_stuck {s : σ} {a : Λ} {as : List Λ} (ht : step s a = none) :
    Meets step C s (a :: as) ↔ C s a := by
  rw [Meets]
  constructor
  · rintro ⟨hC, -⟩
    exact hC
  · intro hC
    refine ⟨hC, fun u hu => ?_⟩
    rw [ht] at hu
    cases hu

instance decidableMeets [∀ s a, Decidable (C s a)] :
    ∀ s as, Decidable (Meets step C s as)
  | _, [] => .isTrue trivial
  | s, a :: as =>
      match hs : step s a with
      | none => decidable_of_iff _ (meets_stuck hs).symm
      | some t =>
          have := decidableMeets t as
          decidable_of_iff _ (meets_cons hs).symm

/-- A condition on the labels alone. -/
theorem meets_of_labels {P : Λ → Prop} {s : σ} {as : List Λ}
    (h : ∀ a ∈ as, P a) : Meets step (fun _ a => P a) s as := by
  induction as generalizing s with
  | nil => trivial
  | cons a as ih =>
      exact ⟨h a (by simp), fun t _ => ih (fun b hb => h b (by simp [hb]))⟩

theorem Meets.mono {D : σ → Λ → Prop} {s : σ} {as : List Λ} (h : Meets step C s as)
    (himp : ∀ s a, C s a → D s a) : Meets step D s as := by
  induction as generalizing s with
  | nil => trivial
  | cons a as ih => exact ⟨himp s a h.1, fun t ht => ih (h.2 t ht)⟩

theorem Meets.and {D : σ → Λ → Prop} {s : σ} {as : List Λ}
    (hC : Meets step C s as) (hD : Meets step D s as) :
    Meets step (fun s a => C s a ∧ D s a) s as := by
  induction as generalizing s with
  | nil => trivial
  | cons a as ih =>
      exact ⟨⟨hC.1, hD.1⟩, fun t ht => ih (hC.2 t ht) (hD.2 t ht)⟩

/-- **Conditional invariant**: what each step keeps under the condition
`C` holds after every run whose steps all meet `C`. -/
theorem run_invariant_where {s t : σ} {as : List Λ}
    (hstep : ∀ s a t, I s → C s a → step s a = some t → I t)
    (h₀ : I s) (hC : Meets step C s as) (h : run step s as = some t) :
    I t := by
  induction as generalizing s with
  | nil =>
      rw [run_nil] at h
      cases h
      exact h₀
  | cons a as ih =>
      obtain ⟨u, hu, ht⟩ := run_cons.mp h
      exact ih (hstep s a u h₀ hC.1 hu) (hC.2 u hu) ht

/-- **Conditional invariant with a history**: `J` relates the state to
what the steps so far have returned. -/
theorem run_collect_where {β : Type} {ret : Λ → σ → Option β} {J : List β → σ → Prop} {s t : σ}
    {acc : List β} {as : List Λ}
    (hstep : ∀ acc s a t, J acc s → C s a → step s a = some t → J (acc ++ (ret a t).toList) t)
    (h₀ : J acc s) (hC : Meets step C s as) (h : run step s as = some t) :
    J (acc ++ collect step ret s as) t := by
  induction as generalizing s acc with
  | nil =>
      rw [run_nil] at h
      cases h
      rw [collect, List.append_nil]
      exact h₀
  | cons a as ih =>
      obtain ⟨u, hu, ht⟩ := run_cons.mp h
      rw [collect_cons hu, ← List.append_assoc]
      exact ih (hstep acc s a u h₀ hC.1 hu) (hC.2 u hu) ht

/-- **Invariant**: what every step keeps holds after every run. -/
theorem run_invariant {s t : σ} {as : List Λ}
    (hstep : ∀ s a t, I s → step s a = some t → I t)
    (h₀ : I s) (h : run step s as = some t) : I t :=
  run_invariant_where (C := fun _ _ => True)
    (fun s a t hs _ ht => hstep s a t hs ht) h₀
    (meets_of_labels (fun _ _ => trivial)) h

/-- A step that breaks the condition is fatal, and what is fatal stays so:
then a run that ends well met the condition throughout. -/
theorem meets_of_not_fatal {D : σ → Prop} {s t : σ} {as : List Λ}
    (hbreak : ∀ s a t, step s a = some t → ¬ C s a → D t)
    (hkeep : ∀ s a t, D s → step s a = some t → D t)
    (h : run step s as = some t) (hD : ¬ D t) : Meets step C s as := by
  induction as generalizing s with
  | nil => trivial
  | cons a as ih =>
      obtain ⟨u, hu, hrest⟩ := run_cons.mp h
      refine (meets_cons hu).mpr ⟨?_, ih hrest⟩
      by_contra hC
      exact hD (run_invariant hkeep (hbreak s a u hu hC) hrest)

theorem Reachable.invariant {s₀ s : σ} (h : Reachable step s₀ s)
    (hstep : ∀ s a t, I s → step s a = some t → I t) (h₀ : I s₀) : I s := by
  obtain ⟨as, has⟩ := h
  exact run_invariant hstep h₀ has

end Lib.Run
