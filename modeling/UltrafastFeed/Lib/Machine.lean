import Mathlib.Logic.Basic
import Mathlib.Tactic.Common

/-!
# Machine — an object and its calls

An object answers calls one after the other: `call s k` is the answer to
the call `k` in state `s` and the state it leaves. What a caller sees of
an object is the list of its `answers`.

`Simulates call spec R` is the one rule about two such objects: if `R`
relates their states and every call keeps it and is answered alike, then
no sequence of calls tells them apart.
-/

namespace Lib.Machine

variable {σ τ κ ο : Type}

/-- The state after a sequence of calls. -/
def after (call : σ → κ → ο × σ) : σ → List κ → σ
  | s, [] => s
  | s, k :: ks => after call (call s k).2 ks

/-- The answers to a sequence of calls. -/
def answers (call : σ → κ → ο × σ) : σ → List κ → List ο
  | _, [] => []
  | s, k :: ks => (call s k).1 :: answers call (call s k).2 ks

/-- Related states answer every call alike and stay related. -/
structure Simulates (call : σ → κ → ο × σ) (spec : τ → κ → ο × τ) (R : σ → τ → Prop) :
    Prop where
  answer : ∀ s t k, R s t → (call s k).1 = (spec t k).1
  keeps : ∀ s t k, R s t → R (call s k).2 (spec t k).2

variable {call : σ → κ → ο × σ} {spec : τ → κ → ο × τ} {R : σ → τ → Prop} {s : σ} {t : τ}

theorem Simulates.after (h : Simulates call spec R) (hR : R s t) (ks : List κ) :
    R (after call s ks) (after spec t ks) := by
  induction ks generalizing s t with
  | nil => exact hR
  | cons k ks ih => exact ih (h.keeps s t k hR)

/-- **No sequence of calls tells related objects apart.** -/
theorem Simulates.answers_eq (h : Simulates call spec R) (hR : R s t) (ks : List κ) :
    answers call s ks = answers spec t ks := by
  induction ks generalizing s t with
  | nil => rfl
  | cons k ks ih => rw [answers, answers, h.answer s t k hR, ih (h.keeps s t k hR)]

end Lib.Machine
