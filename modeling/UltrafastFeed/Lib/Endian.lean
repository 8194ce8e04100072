import Mathlib.Data.List.Basic
import Mathlib.Tactic.Common
import Mathlib.Tactic.Ring

/-!
# Endian — fixed-width little-endian byte strings

`leBytes w v` is what a `w`-byte store of `v` puts in memory on a
little-endian host, `leNat` what a load reads back. Besides the two
round trips there is one fact about TORN stores: a store of `v` over
zero bytes that stops after `j` of its bytes leaves the low `j` bytes
of `v`.
-/

namespace Lib.Endian

/-- The `w` low bytes of `v`, least significant first. -/
def leBytes : Nat → Nat → List UInt8
  | 0, _ => []
  | w + 1, v => UInt8.ofNat v :: leBytes w (v / 256)

/-- The number whose bytes, least significant first, are `bs`. -/
def leNat : List UInt8 → Nat
  | [] => 0
  | b :: bs => b.toNat + 256 * leNat bs

@[simp] theorem leBytes_length (w v : Nat) : (leBytes w v).length = w := by
  induction w generalizing v with
  | zero => rfl
  | succ w ih => simp [leBytes, ih]

theorem leNat_lt (bs : List UInt8) : leNat bs < 256 ^ bs.length := by
  induction bs with
  | nil => simp [leNat]
  | cons b bs ih =>
      have hb : b.toNat < 256 := b.toNat_lt
      rw [leNat, List.length_cons, Nat.pow_succ]
      omega

/-- A load after a store gives the value modulo the width. -/
theorem leNat_leBytes (w v : Nat) : leNat (leBytes w v) = v % 256 ^ w := by
  induction w generalizing v with
  | zero => simp [leBytes, leNat, Nat.mod_one]
  | succ w ih =>
      -- the low byte is the remainder by 256, the rest is the quotient
      have hbyte : (UInt8.ofNat v).toNat = v % 256 := by rw [UInt8.toNat_ofNat']
      have hpow : 256 ^ (w + 1) = 256 * 256 ^ w := by rw [Nat.pow_succ, Nat.mul_comm]
      rw [leBytes, leNat, hbyte, ih, hpow, Nat.mod_mul]

theorem leNat_leBytes_of_lt {w v : Nat} (h : v < 256 ^ w) :
    leNat (leBytes w v) = v := by
  rw [leNat_leBytes, Nat.mod_eq_of_lt h]

/-- A store after a load gives the bytes. -/
theorem leBytes_leNat (bs : List UInt8) : leBytes bs.length (leNat bs) = bs := by
  induction bs with
  | nil => rfl
  | cons b bs ih =>
      have hb : b.toNat < 256 := b.toNat_lt
      have hmod : (b.toNat + 256 * leNat bs) % 2 ^ 8 = b.toNat := by omega
      have hdiv : (b.toNat + 256 * leNat bs) / 256 = leNat bs := by omega
      rw [List.length_cons, leBytes, leNat, hdiv, ih]
      congr 1
      apply UInt8.toNat_inj.mp
      rw [UInt8.toNat_ofNat', hmod]

theorem leBytes_take {j w : Nat} (h : j ≤ w) (v : Nat) :
    (leBytes w v).take j = leBytes j v := by
  induction w generalizing j v with
  | zero =>
      have hj : j = 0 := by omega
      subst hj
      rfl
  | succ w ih =>
      cases j with
      | zero => rfl
      | succ j => rw [leBytes, leBytes, List.take_succ_cons, ih (by omega)]

theorem leNat_append (as bs : List UInt8) :
    leNat (as ++ bs) = leNat as + 256 ^ as.length * leNat bs := by
  induction as with
  | nil => simp [leNat]
  | cons a as ih =>
      rw [List.cons_append, leNat, ih, leNat, List.length_cons, Nat.pow_succ]
      ring

@[simp] theorem leNat_replicate_zero (n : Nat) :
    leNat (List.replicate n 0) = 0 := by
  induction n with
  | zero => rfl
  | succ n ih => simp [List.replicate_succ, leNat, ih]

/-- **A torn store of `v` over zeros** reads back as its low bytes. -/
theorem leNat_torn {j w : Nat} (h : j ≤ w) (v n : Nat) :
    leNat ((leBytes w v).take j ++ List.replicate n 0) = v % 256 ^ j := by
  rw [leNat_append, leNat_replicate_zero, Nat.mul_zero, Nat.add_zero,
    leBytes_take h, leNat_leBytes]

/-! ## Machine words -/

def u64Bytes (v : UInt64) : List UInt8 := leBytes 8 v.toNat
def u32Bytes (v : UInt32) : List UInt8 := leBytes 4 v.toNat
def u16Bytes (v : UInt16) : List UInt8 := leBytes 2 v.toNat

def toU64 (bs : List UInt8) : UInt64 := UInt64.ofNat (leNat bs)
def toU32 (bs : List UInt8) : UInt32 := UInt32.ofNat (leNat bs)
def toU16 (bs : List UInt8) : UInt16 := UInt16.ofNat (leNat bs)

@[simp] theorem u64Bytes_length (v : UInt64) : (u64Bytes v).length = 8 :=
  leBytes_length 8 _

@[simp] theorem u32Bytes_length (v : UInt32) : (u32Bytes v).length = 4 :=
  leBytes_length 4 _

@[simp] theorem u16Bytes_length (v : UInt16) : (u16Bytes v).length = 2 :=
  leBytes_length 2 _

@[simp] theorem toU64_u64Bytes (v : UInt64) : toU64 (u64Bytes v) = v := by
  rw [toU64, u64Bytes, leNat_leBytes_of_lt v.toNat_lt, UInt64.ofNat_toNat]

@[simp] theorem toU32_u32Bytes (v : UInt32) : toU32 (u32Bytes v) = v := by
  rw [toU32, u32Bytes, leNat_leBytes_of_lt v.toNat_lt, UInt32.ofNat_toNat]

@[simp] theorem toU16_u16Bytes (v : UInt16) : toU16 (u16Bytes v) = v := by
  rw [toU16, u16Bytes, leNat_leBytes_of_lt v.toNat_lt, UInt16.ofNat_toNat]

theorem toNat_toU64 {bs : List UInt8} (h : bs.length = 8) : (toU64 bs).toNat = leNat bs := by
  have hlt : leNat bs < 2 ^ 64 := by
    have hbound := leNat_lt bs
    rwa [h] at hbound
  rw [toU64, UInt64.toNat_ofNat', Nat.mod_eq_of_lt hlt]

theorem u32Bytes_toU32 {bs : List UInt8} (h : bs.length = 4) : u32Bytes (toU32 bs) = bs := by
  have hlt : leNat bs < 2 ^ 32 := by
    have hbound := leNat_lt bs
    rwa [h] at hbound
  have hbytes := leBytes_leNat bs
  rw [h] at hbytes
  rw [u32Bytes, toU32, UInt32.toNat_ofNat', Nat.mod_eq_of_lt hlt, hbytes]

end Lib.Endian
