import Mathlib.Algebra.Ring.Nat
import Mathlib.Tactic.Common

/-!
# Clock

`clock_ns()`, which the handler, the sender, the reader and the tools
each define alike, and the `timespec` that a sleep is asked for with.
-/

namespace UltrafastFeed

/-- `struct timespec`. -/
structure Timespec where
  tvSec : Nat
  tvNsec : Nat
  deriving DecidableEq, Repr

def Timespec.ns (ts : Timespec) : Nat := ts.tvSec * 1000000000 + ts.tvNsec

/-- What `clock_gettime(CLOCK_MONOTONIC)` fills in at time `t`. -/
def clockGettime (t : Nat) : Timespec := ⟨t / 1000000000, t % 1000000000⟩

def clockNs (ts : Timespec) : UInt64 :=
  UInt64.ofNat ts.tvSec * 1000000000 + UInt64.ofNat ts.tvNsec

theorem clockNs_gettime (t : Nat) : clockNs (clockGettime t) = UInt64.ofNat t := by
  have hsplit := Nat.div_add_mod t 1000000000
  rw [clockNs, clockGettime, show (1000000000 : UInt64) = UInt64.ofNat 1000000000 from rfl,
    ← UInt64.ofNat_mul, ← UInt64.ofNat_add, Nat.mul_comm, hsplit]

theorem clockNs_toNat {t : Nat} (ht : t < 2 ^ 64) : (clockNs (clockGettime t)).toNat = t := by
  rw [clockNs_gettime, UInt64.toNat_ofNat', Nat.mod_eq_of_lt ht]

/-- The request of `replay_at_rate`'s `nanosleep`. -/
def sleepTime (sleepNs : UInt64) : Timespec :=
  ⟨(sleepNs / 1000000000).toNat, (sleepNs % 1000000000).toNat⟩

theorem gettime_ns (t : Nat) : (clockGettime t).ns = t := by
  rw [Timespec.ns, clockGettime]
  have hsplit := Nat.div_add_mod t 1000000000
  dsimp only
  omega

/-- The request is for `sleep_ns` nanoseconds, in the form of a clock
reading: less than a second is in `tv_nsec`. -/
theorem sleepTime_eq (d : UInt64) : sleepTime d = clockGettime d.toNat := by
  have hbase : (1000000000 : UInt64).toNat = 1000000000 := rfl
  rw [sleepTime, clockGettime, UInt64.toNat_div, UInt64.toNat_mod, hbase]

end UltrafastFeed
