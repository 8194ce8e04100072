import Mathlib.Data.List.Forall2
import Mathlib.Tactic.Common

/-!
# Pacer — sleep until the next target

A loop calls somebody at given target times: it reads the clock, sleeps
for the difference if the target lies ahead, and calls. `Timing` is what
the machine adds: how long the loop is busy between two readings, how
long a sleep really takes, and how long it takes to get from there to
the call.

A loop like this forgets: a call that had to sleep is late by its own
overshoot and by nothing else. So every delay is the work done since some
target that was met (`calls_le`), and if the work for each call fits
between two targets, no delay lasts (`gaps_absorb_work`).
-/

namespace Lib.Pacer

structure Timing where
  /-- From the call before the `i`-th to the reading for it. -/
  busy : Nat → Nat
  /-- How long a sleep of `d` before the `i`-th call takes. -/
  sleep : Nat → Nat → Nat
  /-- From the reading or the sleep to the `i`-th call. -/
  enter : Nat → Nat

/-- When the `i`-th call happens, the one before it having happened at
`prev`. -/
def Timing.call (t : Timing) (i prev target : Nat) : Nat :=
  let now := prev + t.busy i
  (if now < target then now + t.sleep i (target - now) else now) + t.enter i

def Timing.calls (t : Timing) : Nat → Nat → List Nat → List Nat
  | _, _, [] => []
  | i, prev, target :: targets =>
      t.call i prev target :: t.calls (i + 1) (t.call i prev target) targets

/-- The time that `n` calls from the `i`-th on take without sleeping. -/
def Timing.work (t : Timing) (i : Nat) : Nat → Nat
  | 0 => 0
  | n + 1 => t.busy i + t.enter i + t.work (i + 1) n

/-- A sleep lasts at least as long as it was asked to. -/
def Timing.Complete (t : Timing) : Prop := ∀ i d, d ≤ t.sleep i d

/-- A call after a sleep, or without one, is off by `ε` at most. -/
def Timing.Prompt (t : Timing) (ε : Nat) : Prop := ∀ i d, t.sleep i d + t.enter i ≤ d + ε

variable {t : Timing} {i prev target ε : Nat} {targets : List Nat}

theorem target_le_call (h : t.Complete) : target ≤ t.call i prev target := by
  rw [Timing.call]
  split
  · have hlong := h i (target - (prev + t.busy i))
    omega
  · omega

/-- **No call is early**, if no sleep is cut short. -/
theorem calls_ge (h : t.Complete) (i prev : Nat) (targets : List Nat) :
    List.Forall₂ (· ≤ ·) targets (t.calls i prev targets) := by
  induction targets generalizing i prev with
  | nil => exact .nil
  | cons target targets ih => exact .cons (target_le_call h) (ih _ _)

/-- A call that slept is late by its overshoot, and one that did not
sleep by the work since the call before it. -/
theorem call_le (h : t.Prompt ε) (i prev target : Nat) :
    t.call i prev target ≤ target + ε ∨ t.call i prev target = prev + (t.busy i + t.enter i) := by
  rw [Timing.call]
  split
  · have hprompt := h i (target - (prev + t.busy i))
    left
    omega
  · right
    omega

/-- **Every delay is work**: the `n`-th call happens within `ε` of some
target before it and the work since, or within the work since the start. -/
theorem calls_le (h : t.Prompt ε) {n c : Nat} (hc : (t.calls i prev targets)[n]? = some c) :
    c ≤ prev + t.work i (n + 1) ∨
      ∃ k τ, k ≤ n ∧ targets[k]? = some τ ∧ c ≤ τ + ε + t.work (i + k + 1) (n - k) := by
  induction targets generalizing i prev n with
  | nil => cases hc
  | cons target targets ih =>
      cases n with
      | zero =>
          cases hc
          rcases call_le h i prev target with hle | heq
          · exact .inr ⟨0, target, Nat.le_refl _, rfl, hle⟩
          · left
            rw [heq]
            exact Nat.le_refl _
      | succ n =>
          rcases ih hc with hle | ⟨k, τ, hk, hτ, hle⟩
          · -- nothing slept since the first call, which is as in the case above
            rcases call_le h i prev target with hcall | hcall
            · refine .inr ⟨0, target, Nat.zero_le _, rfl, ?_⟩
              rw [Nat.add_zero, Nat.sub_zero]
              omega
            · left
              rw [hcall] at hle
              rw [Timing.work]
              omega
          · refine .inr ⟨k + 1, τ, Nat.succ_le_succ hk, hτ, ?_⟩
            rw [Nat.succ_sub_succ, show i + (k + 1) + 1 = i + 1 + k + 1 by omega]
            exact hle

/-- Gaps that hold the work for one call each hold the work for all. -/
theorem gaps_absorb_work
    (hgaps : ∀ n a b, targets[n]? = some a → targets[n + 1]? = some b →
      a + (t.busy (n + 1) + t.enter (n + 1)) ≤ b) {m k a b : Nat}
    (ha : targets[k]? = some a) (hb : targets[k + m]? = some b) :
    a + t.work (k + 1) m ≤ b := by
  induction m generalizing k a with
  | zero =>
      rw [Nat.add_zero, ha] at hb
      cases hb
      exact Nat.le_refl _
  | succ m ih =>
      have hlt : k + 1 < targets.length := by
        have hbound := (List.getElem?_eq_some_iff.mp hb).1
        omega
      have hnext : targets[k + 1]? = some targets[k + 1] := List.getElem?_eq_getElem hlt
      have hfirst := hgaps k a _ ha hnext
      have hrest := ih hnext (by rw [show k + 1 + m = k + (m + 1) by omega]; exact hb)
      rw [Timing.work]
      omega

end Lib.Pacer
