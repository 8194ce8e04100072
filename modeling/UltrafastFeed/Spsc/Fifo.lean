import Mathlib.Data.Fin.VecNotation
import UltrafastFeed.Spsc.Invariant

/-!
# Spsc — Fifo

The ring is a lossless FIFO under every interleaving. `contents` reads
the ring out of its memory the way a consumer would: from the newest
`head_`, as many slots as `size()` computes from the newest indices.
What has been popped followed by the contents is what has been pushed,
at every step of either party.
-/

namespace UltrafastFeed.Spsc

open Lib.Run

/-! ## `size()` on counters -/

/-- `(t - h + N) & kMask` is the distance of the two counters whenever
they are less than `N` apart, in whichever order the indices stand. -/
theorem size_mod (c : Capacity) {p q : Nat} (hle : q ≤ p) (hlt : p < q + c.N) :
    size c (p % c.N) (q % c.N) = p - q := by
  obtain ⟨k, hk⟩ := c.eq_two_pow
  have hk64 : k ≤ 64 := by
    have hfit := c.fits
    rw [hk] at hfit
    exact Nat.le_of_lt ((Nat.pow_lt_pow_iff_right (by decide)).mp hfit)
  have hdvd : c.N ∣ 2 ^ 64 := by rw [hk]; exact Nat.pow_dvd_pow 2 hk64
  have hq : q % c.N < c.N := Nat.mod_lt _ c.pos
  have hfit := c.fits
  rw [size, c.and_mask, Nat.mod_mod_of_dvd _ hdvd, Nat.add_mod_right]
  -- modulo `N` the sum is `p - q`, and `p - q` is less than `N`
  have hmod : (p % c.N + (2 ^ 64 - q % c.N)) % c.N = (p - q) % c.N := by
    apply Nat.ModEq.add_right_cancel' (q % c.N)
    rw [Nat.add_assoc, Nat.sub_add_cancel (by omega)]
    have h1 : p % c.N + 2 ^ 64 ≡ p [MOD c.N] := by
      rw [Nat.ModEq, Nat.add_mod, Nat.mod_eq_zero_of_dvd hdvd]
      simp
    have h2 : p - q + q % c.N ≡ p - q + q [MOD c.N] :=
      Nat.ModEq.add_left _ (Nat.mod_modEq q c.N)
    rw [Nat.sub_add_cancel hle] at h2
    exact h1.trans h2.symm
  rw [hmod, Nat.mod_eq_of_lt (by omega)]

section

variable {T ι α : Type} {L : TriviallyCopyable T ι α} {c : Capacity}
  {s : State T ι α}

/-! ## The items in the ring -/

/-- The items in the ring, oldest first. -/
def State.contents (L : TriviallyCopyable T ι α) (c : Capacity)
    (s : State T ι α) : List T :=
  match s.tail.getLast?, s.head.getLast?, s.bufs.getLast? with
  | some t, some h, some b =>
      (List.range (size c t.1 h)).map fun k => L.assemble (b ((h + k) &&& c.mask))
  | _, _, _ => []

theorem RingInv.lastTail (hI : RingInv L c s) :
    ∃ v, s.tail.getLast? = some v ∧ v.1 = s.pushed.length % c.N ∧
      v.2 < s.bufs.length := by
  have hlen : s.pushed.length < s.tail.length := by rw [hI.tailLen]; omega
  have hv := List.getElem?_eq_getElem hlen
  refine ⟨_, ?_, hI.tailVal _ _ hv, hI.tailVer _ _ hv⟩
  rw [List.getLast?_eq_getElem?, hI.tailLen, Nat.add_sub_cancel]
  exact hv

theorem RingInv.lastHead (hI : RingInv L c s) :
    s.head.getLast? = some (s.popped.length % c.N) := by
  have hlen : s.popped.length < s.head.length := by rw [hI.headLen]; omega
  have hv := List.getElem?_eq_getElem hlen
  rw [List.getLast?_eq_getElem?, hI.headLen, Nat.add_sub_cancel, hv,
    hI.headVal _ _ hv]

/-- **Nothing is lost**: what was popped, followed by what the ring
holds, is what was pushed. -/
theorem RingInv.contents (hI : RingInv L c s) :
    s.popped ++ s.contents L c = s.pushed := by
  obtain ⟨v, hv, hv1, hv2⟩ := hI.lastTail
  have hle : s.popped.length ≤ s.pushed.length := hI.fifo.length_le
  have hlt : s.pushed.length < s.popped.length + c.N := by
    have := hI.gap; have := hI.headSeen; have := c.two_le; omega
  have hpos : s.bufs.length - 1 < s.bufs.length := by omega
  have hb : s.bufs.getLast? = some s.bufs[s.bufs.length - 1] := by
    rw [List.getLast?_eq_getElem?, List.getElem?_eq_getElem]
  have hcont : s.contents L c = s.pushed.drop s.popped.length := by
    simp only [State.contents, hv, hI.lastHead, hb]
    rw [hv1, size_mod c hle hlt]
    apply List.ext_getElem
    · simp
    · intro k hk hk'
      simp only [List.length_map, List.length_range] at hk
      have hklt : s.popped.length + k < s.pushed.length := by omega
      rw [List.getElem_map, List.getElem_range, List.getElem_drop, c.and_mask,
        Nat.mod_add_mod]
      -- the slot's item is stable from its store on, so also now
      have htl : s.popped.length + k + 1 < s.tail.length := by
        rw [hI.tailLen]; omega
      have htv := List.getElem?_eq_getElem htl
      have hver := hI.tailVer _ _ htv
      rw [hI.stable _ _ _ (Nat.le_add_right _ _) (List.getElem?_eq_getElem hklt) htv
        (s.bufs.length - 1) _ (by omega) (getLast?_bufs hb), L.assemble_words]
  rw [hcont]
  obtain ⟨r, hr⟩ := hI.fifo
  rw [← hr, List.drop_left]

/-! ## The FIFO theorem -/

/-- Both parties copy, and not in the same slot. -/
theorem RingInv.slots_disjoint (hI : RingInv L c s) {x : T} {t h : Nat}
    {todo : Finset ι} {item : ι → Option α} (hp : s.prod = .copying x t todo)
    (hc : s.cons = .copying h item) : t ≠ h := by
  have hprod := hI.prod
  rw [ProducerInv, hp] at hprod
  have hcons := hI.cons
  rw [ConsumerInv, hc] at hcons
  have hule := hI.tailSeen
  rw [hprod.1, hcons.1]
  exact (hI.slot_ne (Nat.le_refl _) (by omega)).symm

variable [Fintype ι] [DecidableEq ι]

/-- **The ring is a lossless FIFO under concurrency.** In every state
that any interleaving of `push` and `pop` steps reaches, with every
admissible choice of stale index values and of readable buffer versions:
the values popped are a prefix of the items pushed, the rest of the
items pushed is what the ring holds, and the producer is never writing
the slot that the consumer is reading. -/
theorem push_pop_lossless_fifo (L : TriviallyCopyable T ι α) (c : Capacity)
    (b : Nat → ι → α) {s : State T ι α}
    (h : Reachable (step L c) (init b) s) :
    s.popped <+: s.pushed ∧ s.popped ++ s.contents L c = s.pushed ∧
      ∀ x t todo hd item, s.prod = .copying x t todo →
        s.cons = .copying hd item → t ≠ hd := by
  have hI := ringInv_reachable h
  exact ⟨hI.fifo, hI.contents, fun _ _ _ _ _ hp hc => hI.slots_disjoint hp hc⟩

end

/-! A ring of two slots with items of two words: one item popped, and the
next one being written while the consumer's second `pop` is entered. -/

def twoSlots : Capacity := ⟨2, by decide, by decide, by decide⟩

def twoWords : TriviallyCopyable (Fin 2 → Nat) (Fin 2) Nat :=
  ⟨id, id, fun _ => rfl⟩

def twoWordRun : List (Action (Fin 2 → Nat) (Fin 2)) :=
  [.push ![3, 4], .pushCheck 0, .pushWord 1, .pop, .pushWord 0, .pushStore,
    .popCheck 1, .popWord 0 2, .popWord 1 2, .push ![5, 6], .popStore,
    .pushCheck 1, .pushWord 0, .pop]

/-- Its push alone. -/
def onePushed : List (Action (Fin 2 → Nat) (Fin 2)) :=
  [.push ![3, 4], .pushCheck 0, .pushWord 1, .pushWord 0, .pushStore]

theorem twoWordRun_enabled :
    (run (step twoWords twoSlots) (init fun _ _ => 0) twoWordRun).isSome := by
  decide

theorem push_pop_lossless_fifo_twoWordRun :
    ∃ s, Reachable (step twoWords twoSlots) (init fun _ _ => 0) s ∧
      s.pushed = [![3, 4]] ∧ s.popped = [![3, 4]] ∧
      s.popped ++ s.contents twoWords twoSlots = s.pushed := by
  have hreach : Reachable (step twoWords twoSlots) (init fun _ _ => 0) _ :=
    ⟨twoWordRun, (Option.some_get twoWordRun_enabled).symm⟩
  refine ⟨_, hreach, ?_, ?_, (push_pop_lossless_fifo twoWords twoSlots _ hreach).2.1⟩
  · clear hreach
    decide
  · clear hreach
    decide

end UltrafastFeed.Spsc
