import Mathlib.Data.Nat.ModEq
import Mathlib.Logic.Function.Basic
import Mathlib.Tactic.Common

/-!
# DescRing — a descriptor ring with free-running 32-bit counters

Two parties share an array of a power-of-two size. Each keeps a counter
of its own that runs ahead of the one it has published: the producer
RESERVES slots, writes them and submits; the consumer PEEKS at entries,
reads them and releases. Nothing is ever reduced modulo the size but the
index of an access, and the counters wrap at `2 ^ 32` whenever they
please.

The meaning of a ring is the STREAM of everything ever written to it,
with four unbounded positions in it (`Marks`). `Tracks` ties the two
together:

    released ≤ peeked ≤ submitted ≤ written ≤ reserved ≤ released + size

and the array holds the stream from `released` on. One rule per operation
says how the marks move; the differences the parties compute on wrapped
counters are the differences of the marks.
-/

namespace Lib

structure DescRing (E : Type) where
  entries : UInt32 → E
  /-- Published by the producer, and its own. -/
  producer : UInt32
  cachedProd : UInt32
  /-- Published by the consumer, and its own. -/
  consumer : UInt32
  cachedCons : UInt32

namespace DescRing

/-- A power of two that fits a 32-bit word. -/
structure RingSize where
  exp : Nat
  exp_lt : exp < 32

namespace RingSize

variable (z : RingSize)

def slots : Nat := 2 ^ z.exp

def size : UInt32 := UInt32.ofNat z.slots

theorem slots_pos : 0 < z.slots := Nat.two_pow_pos z.exp

theorem slots_lt : z.slots < 2 ^ 32 := Nat.pow_lt_pow_right (by decide) z.exp_lt

@[simp] theorem size_toNat : z.size.toNat = z.slots := by
  rw [size, UInt32.toNat_ofNat', Nat.mod_eq_of_lt z.slots_lt]

/-- The slot of an index: masked by `size - 1`. -/
def slot (idx : UInt32) : UInt32 := idx &&& (z.size - 1)

theorem slot_toNat (idx : UInt32) : (z.slot idx).toNat = idx.toNat % z.slots := by
  have hmask : (z.size - 1).toNat = 2 ^ z.exp - 1 := by
    have hpos := z.slots_pos
    have hlt := z.slots_lt
    have hone : 1 ≤ z.size := by
      rw [UInt32.le_iff_toNat_le, size_toNat]
      exact hpos
    rw [UInt32.toNat_sub_of_le _ _ hone, size_toNat]
    rfl
  rw [slot, UInt32.toNat_and, hmask, Nat.and_two_pow_sub_one_eq_mod]
  rfl

end RingSize

/-! ## Positions and counters -/

/-- The counter that stands for position `k`, counting from `i`. -/
def counter (i : UInt32) (k : Nat) : UInt32 := i + UInt32.ofNat k

@[simp] theorem counter_zero (i : UInt32) : counter i 0 = i := UInt32.add_zero i

theorem counter_add_ofNat (i : UInt32) (k n : Nat) :
    counter i k + UInt32.ofNat n = counter i (k + n) := by
  rw [counter, counter, UInt32.ofNat_add, UInt32.add_assoc]

theorem counter_add (i : UInt32) (k : Nat) (n : UInt32) :
    counter i k + n = counter i (k + n.toNat) := by
  rw [← counter_add_ofNat, UInt32.ofNat_toNat]

/-- Wrapped counters differ by what their positions do. -/
theorem counter_sub {i : UInt32} {k n : Nat} (hle : k ≤ n) (hlt : n - k < 2 ^ 32) :
    (counter i n - counter i k).toNat = n - k := by
  have hsplit : counter i n = UInt32.ofNat (n - k) + counter i k := by
    rw [UInt32.add_comm, counter_add_ofNat, Nat.add_sub_cancel' hle]
  rw [hsplit, UInt32.add_sub_cancel, UInt32.toNat_ofNat', Nat.mod_eq_of_lt hlt]

variable {z : RingSize}

theorem slot_counter_toNat (z : RingSize) (i : UInt32) (k : Nat) :
    (z.slot (counter i k)).toNat = (i.toNat + k) % z.slots := by
  have hdvd : z.slots ∣ 2 ^ 32 := Nat.pow_dvd_pow 2 (Nat.le_of_lt z.exp_lt)
  rw [z.slot_toNat, counter, UInt32.toNat_add, UInt32.toNat_ofNat', Nat.add_mod_mod,
    Nat.mod_mod_of_dvd _ hdvd]

/-- Positions less than a ring apart have different slots. -/
theorem slot_counter_ne {i : UInt32} {k n : Nat} (hlt : k < n) (hnear : n < k + z.slots) :
    z.slot (counter i k) ≠ z.slot (counter i n) := by
  intro heq
  have hmod : i.toNat + k ≡ i.toNat + n [MOD z.slots] := by
    have hnat := congrArg UInt32.toNat heq
    rwa [slot_counter_toNat, slot_counter_toNat] at hnat
  have hdvd : z.slots ∣ n - k :=
    (Nat.modEq_iff_dvd' (Nat.le_of_lt hlt)).mp (Nat.ModEq.add_left_cancel' i.toNat hmod)
  have := Nat.le_of_dvd (by omega) hdvd
  omega

/-! ## The ring -/

variable {E : Type}

/-- An empty ring whose counters stand at `i`. -/
def fresh (i : UInt32) (entries : UInt32 → E) : DescRing E := ⟨entries, i, i, i, i⟩

/-- The slots the producer finds free. -/
def free (z : RingSize) (r : DescRing E) : UInt32 := z.size - (r.cachedProd - r.consumer)

/-- The entries the consumer finds available. -/
def available (r : DescRing E) : UInt32 := r.producer - r.cachedCons

def reserve (r : DescRing E) (n : UInt32) : DescRing E := { r with cachedProd := r.cachedProd + n }

def write (z : RingSize) (r : DescRing E) (idx : UInt32) (e : E) : DescRing E :=
  { r with entries := fun k => if k = z.slot idx then e else r.entries k }

def submit (r : DescRing E) (n : UInt32) : DescRing E := { r with producer := r.producer + n }

def peek (r : DescRing E) (n : UInt32) : DescRing E := { r with cachedCons := r.cachedCons + n }

def read (z : RingSize) (r : DescRing E) (idx : UInt32) : E := r.entries (z.slot idx)

def release (r : DescRing E) (n : UInt32) : DescRing E := { r with consumer := r.consumer + n }

theorem read_write_self (z : RingSize) (r : DescRing E) (idx : UInt32) (e : E) :
    (r.write z idx e).read z idx = e :=
  if_pos rfl

theorem read_write_other {z : RingSize} {idx j : UInt32} (h : z.slot j ≠ z.slot idx)
    (r : DescRing E) (e : E) : (r.write z idx e).read z j = r.read z j :=
  if_neg h

/-- The entries from index `a` up to index `b`. -/
def between (z : RingSize) (r : DescRing E) (a b : UInt32) : List E :=
  (List.range (b - a).toNat).map fun k => r.read z (a + UInt32.ofNat k)

/-! ## What a ring means -/

/-- The positions in the stream that the four counters stand for. -/
structure Marks where
  released : Nat
  peeked : Nat
  submitted : Nat
  reserved : Nat

/-- The ring stands at `m` in the stream `w`, its counters having started
at `i`. -/
structure Tracks (z : RingSize) (i : UInt32) (r : DescRing E) (w : List E) (m : Marks) :
    Prop where
  consumer : r.consumer = counter i m.released
  cachedCons : r.cachedCons = counter i m.peeked
  producer : r.producer = counter i m.submitted
  cachedProd : r.cachedProd = counter i m.reserved
  released_le : m.released ≤ m.peeked
  peeked_le : m.peeked ≤ m.submitted
  submitted_le : m.submitted ≤ w.length
  written_le : w.length ≤ m.reserved
  reserved_le : m.reserved ≤ m.released + z.slots
  stored : ∀ k e, m.released ≤ k → w[k]? = some e → r.read z (counter i k) = e

section Rules

variable {i : UInt32} {r : DescRing E} {w : List E} {m : Marks}

theorem tracks_fresh (z : RingSize) (i : UInt32) (entries : UInt32 → E) :
    Tracks z i (DescRing.fresh i entries) [] ⟨0, 0, 0, 0⟩ where
  consumer := (counter_zero i).symm
  cachedCons := (counter_zero i).symm
  producer := (counter_zero i).symm
  cachedProd := (counter_zero i).symm
  released_le := Nat.le_refl 0
  peeked_le := Nat.le_refl 0
  submitted_le := Nat.le_refl 0
  written_le := Nat.le_refl 0
  reserved_le := Nat.zero_le _
  stored := by
    intro k e _ he
    cases he

/-- The live stretch is shorter than the counters' range. -/
theorem Tracks.live_lt (h : Tracks z i r w m) : m.reserved - m.released < 2 ^ 32 := by
  have hlt := z.slots_lt
  have hmax := h.reserved_le
  omega

theorem Tracks.released_le_written (h : Tracks z i r w m) : m.released ≤ w.length :=
  h.released_le.trans (h.peeked_le.trans h.submitted_le)

theorem Tracks.toNat_ofNat (h : Tracks z i r w m) {n : Nat} (hn : n ≤ m.reserved - m.released) :
    (UInt32.ofNat n).toNat = n := by
  rw [UInt32.toNat_ofNat', Nat.mod_eq_of_lt (Nat.lt_of_le_of_lt hn h.live_lt)]

theorem Tracks.free_toNat (h : Tracks z i r w m) :
    (r.free z).toNat = m.released + z.slots - m.reserved := by
  have hlive := h.live_lt
  have hrel := h.released_le_written
  have hw := h.written_le
  have hmax := h.reserved_le
  have husd : (r.cachedProd - r.consumer).toNat = m.reserved - m.released := by
    rw [h.cachedProd, h.consumer, counter_sub (by omega) hlive]
  have hle : r.cachedProd - r.consumer ≤ z.size := by
    rw [UInt32.le_iff_toNat_le, husd, z.size_toNat]
    omega
  rw [DescRing.free, UInt32.toNat_sub_of_le _ _ hle, husd, z.size_toNat]
  omega

theorem Tracks.available_toNat (h : Tracks z i r w m) :
    r.available.toNat = m.submitted - m.peeked := by
  have hlive := h.live_lt
  have hs := h.submitted_le
  have hw := h.written_le
  have hr := h.released_le
  rw [DescRing.available, h.producer, h.cachedCons, counter_sub h.peeked_le (by omega)]

/-- Reserved and not yet submitted. -/
theorem Tracks.unsubmitted_toNat (h : Tracks z i r w m) :
    (r.cachedProd - r.producer).toNat = m.reserved - m.submitted := by
  have hlive := h.live_lt
  have hp := h.peeked_le
  have hr := h.released_le
  rw [h.cachedProd, h.producer, counter_sub (h.submitted_le.trans h.written_le) (by omega)]

/-- Peeked at and not yet released. -/
theorem Tracks.unreleased_toNat (h : Tracks z i r w m) :
    (r.cachedCons - r.consumer).toNat = m.peeked - m.released := by
  have hlive := h.live_lt
  have hp := h.peeked_le
  have hs := h.submitted_le
  have hw := h.written_le
  rw [h.cachedCons, h.consumer, counter_sub h.released_le (by omega)]

theorem Tracks.reserve (h : Tracks z i r w m) {n : UInt32} (hn : n ≤ r.free z) :
    Tracks z i (r.reserve n) w { m with reserved := m.reserved + n.toNat } := by
  have hroom : n.toNat ≤ m.released + z.slots - m.reserved := by
    rw [← h.free_toNat]
    exact UInt32.le_iff_toNat_le.mp hn
  have hmax := h.reserved_le
  refine { h with cachedProd := ?_, written_le := ?_, reserved_le := ?_ }
  · rw [DescRing.reserve, h.cachedProd, counter_add]
  · exact Nat.le_add_right_of_le h.written_le
  · show m.reserved + n.toNat ≤ m.released + z.slots
    omega

/-- The next reserved slot is written: no live entry is touched. -/
theorem Tracks.write (h : Tracks z i r w m) (e : E) (hroom : w.length < m.reserved) :
    Tracks z i (r.write z (counter i w.length) e) (w ++ [e]) m := by
  have hmax := h.reserved_le
  refine { h with submitted_le := ?_, written_le := ?_, stored := ?_ }
  · rw [List.length_append]
    exact Nat.le_add_right_of_le h.submitted_le
  · rw [List.length_append]
    exact hroom
  · intro k e' hk he
    rcases Nat.lt_or_ge k w.length with hlt | hge
    · rw [List.getElem?_append_left hlt] at he
      have hne : z.slot (counter i k) ≠ z.slot (counter i w.length) :=
        slot_counter_ne hlt (by omega)
      rw [DescRing.read_write_other hne]
      exact h.stored k e' hk he
    · rw [List.getElem?_append_right hge] at he
      obtain ⟨hz, rfl⟩ := List.getElem?_eq_some_iff.mp he
      have hz : k - w.length < 1 := hz
      obtain rfl : k = w.length := by omega
      rw [DescRing.read_write_self, List.getElem_singleton]

theorem Tracks.submit (h : Tracks z i r w m) {n : UInt32}
    (hn : m.submitted + n.toNat ≤ w.length) :
    Tracks z i (r.submit n) w { m with submitted := m.submitted + n.toNat } := by
  refine { h with producer := ?_, peeked_le := ?_, submitted_le := hn }
  · rw [DescRing.submit, h.producer, counter_add]
  · exact Nat.le_add_right_of_le h.peeked_le

theorem Tracks.peek (h : Tracks z i r w m) {n : UInt32} (hn : n ≤ r.available) :
    Tracks z i (r.peek n) w { m with peeked := m.peeked + n.toNat } := by
  have havail : n.toNat ≤ m.submitted - m.peeked := by
    rw [← h.available_toNat]
    exact UInt32.le_iff_toNat_le.mp hn
  have hle := h.peeked_le
  refine { h with cachedCons := ?_, released_le := ?_, peeked_le := ?_ }
  · rw [DescRing.peek, h.cachedCons, counter_add]
  · exact Nat.le_add_right_of_le h.released_le
  · show m.peeked + n.toNat ≤ m.submitted
    omega

/-- Released slots are forgotten, and free to be written. -/
theorem Tracks.release (h : Tracks z i r w m) {n : UInt32}
    (hn : m.released + n.toNat ≤ m.peeked) :
    Tracks z i (r.release n) w { m with released := m.released + n.toNat } := by
  have hmax := h.reserved_le
  refine { h with consumer := ?_, released_le := hn, reserved_le := ?_, stored := ?_ }
  · rw [DescRing.release, h.consumer, counter_add]
  · show m.reserved ≤ m.released + n.toNat + z.slots
    omega
  · intro k e hk he
    exact h.stored k e (Nat.le_trans (Nat.le_add_right _ _) hk) he

/-- A stretch of the array from a live position on is that stretch of the
stream. -/
theorem Tracks.between_eq (h : Tracks z i r w m) {a b : Nat} (ha : m.released ≤ a)
    (hab : a ≤ b) (hb : b ≤ w.length) :
    r.between z (counter i a) (counter i b) = (w.take b).drop a := by
  have hlive := h.live_lt
  have hw := h.written_le
  rw [DescRing.between, counter_sub hab (by omega)]
  apply List.ext_getElem
  · simp only [List.length_map, List.length_range, List.length_drop, List.length_take]
    omega
  · intro k hk hk'
    simp only [List.length_map, List.length_range] at hk
    have hget : w[a + k]? = some w[a + k] := List.getElem?_eq_getElem (by omega)
    rw [List.getElem_map, List.getElem_range, List.getElem_drop, List.getElem_take,
      counter_add_ofNat]
    exact h.stored (a + k) _ (by omega) hget

end Rules

end DescRing

end Lib
