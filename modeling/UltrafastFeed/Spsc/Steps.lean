import Mathlib.Data.Nat.ModEq
import UltrafastFeed.Spsc.Model

/-!
# Spsc — Steps

What each step needs and what it does, one inversion per action, and the
index arithmetic: with a power-of-two `N` the masked indices are the
unbounded counters modulo `N`. Later proofs use these and never unfold
`step`.
-/

namespace UltrafastFeed.Spsc

/-! ## Masked indices -/

theorem Capacity.eq_two_pow (c : Capacity) : ∃ k, c.N = 2 ^ k := by
  have hne : c.N ≠ 0 := by have := c.two_le; omega
  exact (Nat.and_sub_one_eq_zero_iff_isPowerOfTwo hne).mp c.pow2

theorem Capacity.pos (c : Capacity) : 0 < c.N := by
  have := c.two_le
  omega

theorem Capacity.and_mask (c : Capacity) (i : Nat) : i &&& c.mask = i % c.N := by
  obtain ⟨k, hk⟩ := c.eq_two_pow
  rw [mask, hk, Nat.and_two_pow_sub_one_eq_mod]

/-- The stored indices are the counters modulo `N`. -/
theorem Capacity.next_mod (c : Capacity) (i : Nat) :
    c.next (i % c.N) = (i + 1) % c.N := by
  have hlt : i % c.N < c.N := Nat.mod_lt _ c.pos
  have hfit : i % c.N + 1 < 2 ^ 64 := by have := c.fits; omega
  rw [next, Nat.mod_eq_of_lt hfit, and_mask, Nat.mod_add_mod]

/-- Two counters less than `N` apart have the same index only if they
are equal. -/
theorem eq_of_mod_eq {n i j : Nat} (hij : i ≤ j) (hlt : j < i + n)
    (h : i % n = j % n) : i = j := by
  have hd : n ∣ j - i := (Nat.modEq_iff_dvd' hij).mp h
  have hz : j - i = 0 := Nat.eq_zero_of_dvd_of_lt hd (by omega)
  omega

/-! ## One inversion per action -/

section

variable {T ι α : Type} {s t : State T ι α}

theorem loadHead_some {j h : Nat} (hl : s.loadHead j = some h) :
    s.headSeen ≤ j ∧ s.head[j]? = some h := by
  rw [State.loadHead] at hl
  split at hl
  · exact ⟨‹_›, hl⟩
  · cases hl

theorem loadTail_some {j : Nat} {v : Nat × Nat} (hl : s.loadTail j = some v) :
    s.tailSeen ≤ j ∧ s.tail[j]? = some v := by
  rw [State.loadTail] at hl
  split at hl
  · exact ⟨‹_›, hl⟩
  · cases hl

theorem complete?_some [Fintype ι] {item : ι → Option α} {f : ι → α}
    (hf : complete? item = some f) (w : ι) : item w = some (f w) := by
  rw [complete?] at hf
  split at hf
  · cases hf
    simp
  · cases hf

variable [Fintype ι] [DecidableEq ι]
variable {L : TriviallyCopyable T ι α} {c : Capacity}

theorem step_push {x : T} (h : step L c s (.push x) = some t) :
    ∃ v, s.prod = .idle ∧ s.tail.getLast? = some v ∧
      t = { s with prod := .loaded x v.1 } := by
  simp only [step] at h
  split at h
  · cases h
    exact ⟨_, ‹_›, ‹_›, rfl⟩
  · cases h

/-- The fullness test either refuses the item or starts the copy. -/
theorem step_pushCheck {j : Nat} (h : step L c s (.pushCheck j) = some t) :
    ∃ x i v, s.prod = .loaded x i ∧ s.headSeen ≤ j ∧ s.head[j]? = some v ∧
      ((c.next i = v ∧ t = { s with headSeen := j, prod := .idle }) ∨
       (c.next i ≠ v ∧
        t = { s with headSeen := j, prod := .copying x i Finset.univ })) := by
  simp only [step] at h
  split at h
  · rename_i x i v hp hl
    obtain ⟨hle, hj⟩ := loadHead_some hl
    split at h <;> cases h
    · exact ⟨x, i, v, hp, hle, hj, .inl ⟨‹_›, rfl⟩⟩
    · exact ⟨x, i, v, hp, hle, hj, .inr ⟨‹_›, rfl⟩⟩
  · cases h

theorem step_pushWord {w : ι} (h : step L c s (.pushWord w) = some t) :
    ∃ x i todo b, s.prod = .copying x i todo ∧ s.bufs.getLast? = some b ∧
      w ∈ todo ∧
      t = { s with
            bufs := s.bufs ++ [writeWord b i w (L.words x w)]
            prod := .copying x i (todo.erase w) } := by
  simp only [step] at h
  split at h
  · split at h <;> cases h
    exact ⟨_, _, _, _, ‹_›, ‹_›, ‹_›, rfl⟩
  · cases h

theorem step_pushStore (h : step L c s .pushStore = some t) :
    ∃ x i, s.prod = .copying x i ∅ ∧
      t = { s with
            tail := s.tail ++ [(c.next i, s.bufs.length - 1)]
            prod := .idle
            pushed := s.pushed ++ [x] } := by
  simp only [step] at h
  split at h
  · rename_i x i todo hp
    split at h <;> cases h
    rename_i ht
    subst ht
    exact ⟨x, i, hp, rfl⟩
  · cases h

theorem step_pushQuery {q : Query} {j : Nat}
    (h : step L c s (.pushQuery q j) = some t) :
    ∃ v, s.prod = .idle ∧ s.headSeen ≤ j ∧ s.head[j]? = some v ∧
      t = { s with headSeen := j } := by
  simp only [step] at h
  split at h
  · rename_i v hp hl
    obtain ⟨hle, hj⟩ := loadHead_some hl
    cases h
    exact ⟨v, hp, hle, hj, rfl⟩
  · cases h

theorem step_pop (h : step L c s .pop = some t) :
    ∃ v, s.cons = .idle ∧ s.head.getLast? = some v ∧
      t = { s with cons := .loaded v } := by
  simp only [step] at h
  split at h
  · cases h
    exact ⟨_, ‹_›, ‹_›, rfl⟩
  · cases h

/-- The emptiness test either returns nothing or starts the copy; both
have loaded `tail_`. -/
theorem step_popCheck {j : Nat} (h : step L c s (.popCheck j) = some t) :
    ∃ i v, s.cons = .loaded i ∧ s.tailSeen ≤ j ∧ s.tail[j]? = some v ∧
      ((i = v.1 ∧ t = { s.acquire j v with cons := .idle }) ∨
       (i ≠ v.1 ∧
        t = { s.acquire j v with cons := .copying i fun _ => none })) := by
  simp only [step] at h
  split at h
  · rename_i i v hp hl
    obtain ⟨hle, hj⟩ := loadTail_some hl
    split at h <;> cases h
    · exact ⟨i, v, hp, hle, hj, .inl ⟨‹_›, rfl⟩⟩
    · exact ⟨i, v, hp, hle, hj, .inr ⟨‹_›, rfl⟩⟩
  · cases h

theorem step_popWord {w : ι} {m : Nat}
    (h : step L c s (.popWord w m) = some t) :
    ∃ i item b, s.cons = .copying i item ∧ s.bufs[m]? = some b ∧
      s.visible ≤ m ∧ item w = none ∧
      t = { s with
            cons := .copying i fun k => if k = w then some (b i w) else item k } := by
  simp only [step] at h
  split at h
  · split at h <;> cases h
    rename_i hv
    exact ⟨_, _, _, ‹_›, ‹_›, hv.1, hv.2, rfl⟩
  · cases h

theorem step_popStore (h : step L c s .popStore = some t) :
    ∃ i item f, s.cons = .copying i item ∧ (∀ w, item w = some (f w)) ∧
      t = { s with
            head := s.head ++ [c.next i]
            cons := .idle
            popped := s.popped ++ [L.assemble f] } := by
  simp only [step] at h
  split at h
  · rename_i i item hp
    split at h <;> cases h
    rename_i f hf
    exact ⟨i, item, f, hp, complete?_some hf, rfl⟩
  · cases h

theorem step_popQuery {q : Query} {j : Nat}
    (h : step L c s (.popQuery q j) = some t) :
    ∃ v, s.cons = .idle ∧ s.tailSeen ≤ j ∧ s.tail[j]? = some v ∧
      t = s.acquire j v := by
  simp only [step] at h
  split at h
  · rename_i v hp hl
    obtain ⟨hle, hj⟩ := loadTail_some hl
    cases h
    exact ⟨v, hp, hle, hj, rfl⟩
  · cases h

/-! ## What each party leaves alone -/

/-- The producer's steps; the others are the consumer's. -/
def Action.byProducer : Action T ι → Bool
  | .push _ | .pushCheck _ | .pushWord _ | .pushStore | .pushQuery _ _ => true
  | _ => false

theorem producer_frame {a : Action T ι} (ha : a.byProducer = true)
    (h : step L c s a = some t) :
    t.head = s.head ∧ t.tailSeen = s.tailSeen ∧ t.visible = s.visible ∧ t.cons = s.cons ∧
      t.popped = s.popped := by
  cases a with
  | push x =>
      obtain ⟨_, -, -, rfl⟩ := step_push h
      exact ⟨rfl, rfl, rfl, rfl, rfl⟩
  | pushCheck j =>
      obtain ⟨_, _, _, -, -, -, ⟨-, rfl⟩ | ⟨-, rfl⟩⟩ := step_pushCheck h
      · exact ⟨rfl, rfl, rfl, rfl, rfl⟩
      · exact ⟨rfl, rfl, rfl, rfl, rfl⟩
  | pushWord w =>
      obtain ⟨_, _, _, _, -, -, -, rfl⟩ := step_pushWord h
      exact ⟨rfl, rfl, rfl, rfl, rfl⟩
  | pushStore =>
      obtain ⟨_, _, -, rfl⟩ := step_pushStore h
      exact ⟨rfl, rfl, rfl, rfl, rfl⟩
  | pushQuery q j =>
      obtain ⟨_, -, -, -, rfl⟩ := step_pushQuery h
      exact ⟨rfl, rfl, rfl, rfl, rfl⟩
  | _ => cases ha

theorem consumer_frame {a : Action T ι} (ha : a.byProducer = false)
    (h : step L c s a = some t) :
    t.tail = s.tail ∧ t.bufs = s.bufs ∧ t.headSeen = s.headSeen ∧ t.prod = s.prod ∧
      t.pushed = s.pushed := by
  cases a with
  | pop =>
      obtain ⟨_, -, -, rfl⟩ := step_pop h
      exact ⟨rfl, rfl, rfl, rfl, rfl⟩
  | popCheck j =>
      obtain ⟨_, _, -, -, -, ⟨-, rfl⟩ | ⟨-, rfl⟩⟩ := step_popCheck h
      · exact ⟨rfl, rfl, rfl, rfl, rfl⟩
      · exact ⟨rfl, rfl, rfl, rfl, rfl⟩
  | popWord w m =>
      obtain ⟨_, _, _, -, -, -, -, rfl⟩ := step_popWord h
      exact ⟨rfl, rfl, rfl, rfl, rfl⟩
  | popStore =>
      obtain ⟨_, _, _, -, -, rfl⟩ := step_popStore h
      exact ⟨rfl, rfl, rfl, rfl, rfl⟩
  | popQuery q j =>
      obtain ⟨_, -, -, -, rfl⟩ := step_popQuery h
      exact ⟨rfl, rfl, rfl, rfl, rfl⟩
  | _ => cases ha

end

end UltrafastFeed.Spsc
