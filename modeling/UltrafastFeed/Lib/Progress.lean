import UltrafastFeed.Lib.Run

/-!
# Progress — one party's call among all the others

One party of a system makes the steps `mine`; the others move as they
like. While the party is `busy` with a call, `rank` bounds the steps it
still has to make: each of its own steps lowers the rank, nobody else's
step changes the rank or ends the call, and one of its own steps is
always enabled.

Two things follow, and `Completes` states them. In ANY interleaving the
call takes at most `rank` steps of its party, so no other party can hold
it up; and the party alone can bring it to its end, so it never waits for
another party either.
-/

namespace Lib.Progress

open Lib.Run

variable {σ Λ : Type}

/-- The party of the steps `mine` completes the call it is in within `n`
of them, as long as every step meets `C`. -/
structure Completes (step : σ → Λ → Option σ) (C : σ → Λ → Prop) (mine : Λ → Bool)
    (busy : σ → Prop) (n : Nat) (s : σ) : Prop where
  bounded : ∀ as t, run step s as = some t → Meets step C s as →
    Meets step (fun s _ => busy s) s as → as.countP mine ≤ n
  alone : ∃ as t, (∀ a ∈ as, mine a = true) ∧ Meets step C s as ∧
    run step s as = some t ∧ ¬ busy t ∧ as.length ≤ n

/-- `I` is what holds along the runs whose steps meet `C`. -/
structure Ranked (step : σ → Λ → Option σ) (C : σ → Λ → Prop) (mine : Λ → Bool)
    (I busy : σ → Prop) (rank : σ → Nat) : Prop where
  keeps : ∀ s a t, I s → C s a → step s a = some t → I t
  own : ∀ s a t, I s → busy s → C s a → step s a = some t → mine a = true →
    rank t < rank s
  other : ∀ s a t, I s → busy s → C s a → step s a = some t → mine a = false →
    rank t = rank s
  enabled : ∀ s, I s → busy s → ∃ a, mine a = true ∧ C s a ∧ (step s a).isSome

variable {step : σ → Λ → Option σ} {C : σ → Λ → Prop} {mine : Λ → Bool}
variable {I busy : σ → Prop} {rank : σ → Nat} {s t : σ} {as : List Λ}

/-- **Nobody holds the call up**: as long as it lasts, its party has made
no more steps than the rank it started with. -/
theorem Ranked.own_le (h : Ranked step C mine I busy rank) (hI : I s)
    (hrun : run step s as = some t) (hC : Meets step C s as)
    (hbusy : Meets step (fun s _ => busy s) s as) : as.countP mine + rank t ≤ rank s := by
  induction as generalizing s with
  | nil =>
      rw [run_nil] at hrun
      cases hrun
      simp
  | cons a as ih =>
      obtain ⟨u, hu, hrun⟩ := run_cons.mp hrun
      have hrest := ih (h.keeps s a u hI hC.1 hu) hrun (hC.2 u hu) (hbusy.2 u hu)
      rw [List.countP_cons]
      cases hmine : mine a with
      | true =>
          have hlt := h.own s a u hI hbusy.1 hC.1 hu hmine
          rw [if_pos rfl]
          omega
      | false =>
          have heq := h.other s a u hI hbusy.1 hC.1 hu hmine
          rw [if_neg nofun]
          omega

/-- **The call waits for nobody**: its party alone ends it. -/
theorem Ranked.finishes (h : Ranked step C mine I busy rank) (hI : I s) :
    ∃ as t, (∀ a ∈ as, mine a = true) ∧ Meets step C s as ∧ run step s as = some t ∧
      ¬ busy t ∧ I t ∧ as.length ≤ rank s := by
  -- the rank falls with every step, so the induction is on a bound of it
  induction hn : rank s using Nat.strongRecOn generalizing s with
  | ind n ih =>
      by_cases hbusy : busy s
      · obtain ⟨a, hmine, hC, hsome⟩ := h.enabled s hI hbusy
        obtain ⟨u, hu⟩ := Option.isSome_iff_exists.mp hsome
        have hlt := h.own s a u hI hbusy hC hu hmine
        have hIu := h.keeps s a u hI hC hu
        obtain ⟨as, t, has, hmeets, hrun, hidle, hIt, hlen⟩ := ih (rank u) (by omega) hIu rfl
        refine ⟨a :: as, t, ?_, (meets_cons hu).mpr ⟨hC, hmeets⟩, run_cons.mpr ⟨u, hu, hrun⟩,
          hidle, hIt, ?_⟩
        · exact List.forall_mem_cons.mpr ⟨hmine, has⟩
        · rw [List.length_cons]
          omega
      · exact ⟨[], s, by simp, trivial, rfl, hbusy, hI, Nat.zero_le _⟩

theorem Ranked.completes (h : Ranked step C mine I busy rank) (hI : I s) {n : Nat}
    (hn : rank s ≤ n) : Completes step C mine busy n s where
  bounded as t hrun hC hbusy := by
    have hle := h.own_le hI hrun hC hbusy
    omega
  alone := by
    obtain ⟨as, t, has, hmeets, hrun, hidle, -, hlen⟩ := h.finishes hI
    exact ⟨as, t, has, hmeets, hrun, hidle, Nat.le_trans hlen hn⟩

end Lib.Progress
