import UltrafastFeed.Lib.Machine
import UltrafastFeed.Spsc.Alone
import UltrafastFeed.Spsc.Fifo

/-!
# Spsc — Sequential

`SpscRingBuffer<T, N>` used by one thread: every call runs to its end
before the next one starts, so the ring is its two indices and `buf_`.
It refines a bounded FIFO queue of capacity `N - 1`. The abstraction
again goes through a counter behind the masked `head_`: the queue is
what lies in the `N - 1` slots from there on.

The last section ties this ring to the interleaved one: a call here is a
run of steps there, in which nobody else moves and every load returns
the newest value.
-/

namespace UltrafastFeed.Spsc

open Lib.Run Lib.Machine

variable {T : Type}

/-! ## The model -/

structure Ring (T : Type) where
  tail : Nat
  head : Nat
  buf : Nat → T

/-- A fresh ring, with `buf_` as constructed. -/
def Ring.fresh (b : Nat → T) : Ring T := ⟨0, 0, b⟩

/-- `push(const T&)`. -/
def Ring.push (c : Capacity) (r : Ring T) (item : T) : Bool × Ring T :=
  let t := r.tail
  let nextT := c.next t
  if nextT = r.head then (false, r)
  else (true, { r with tail := nextT, buf := fun i => if i = t then item else r.buf i })

/-- `push(T&&)`: moving a trivially copyable item copies it. -/
def Ring.pushMove (c : Capacity) (r : Ring T) (item : T) : Bool × Ring T :=
  r.push c item

def Ring.pop (c : Capacity) (r : Ring T) : Option T × Ring T :=
  let h := r.head
  if h = r.tail then (none, r) else (some (r.buf h), { r with head := c.next h })

/-- `peek`: the slot that the returned pointer points to. -/
def Ring.peek (r : Ring T) : Option Nat :=
  let h := r.head
  if h = r.tail then none else some h

inductive Call (T : Type) where
  | push (x : T)
  | pushMove (x : T)
  | pop
  | peek
  | empty
  | full
  | size

inductive Answer (T : Type) where
  | accepted (ok : Bool)
  | item (x : Option T)
  | flag (b : Bool)
  | count (n : Nat)

/-- One call. The caller of `peek` sees the item behind the pointer. -/
def Ring.call (c : Capacity) (r : Ring T) : Call T → Answer T × Ring T
  | .push x => (.accepted (r.push c x).1, (r.push c x).2)
  | .pushMove x => (.accepted (r.pushMove c x).1, (r.pushMove c x).2)
  | .pop => (.item (r.pop c).1, (r.pop c).2)
  | .peek => (.item (r.peek.map r.buf), r)
  | .empty => (.flag (Spsc.empty r.head r.tail), r)
  | .full => (.flag (Spsc.full c r.tail r.head), r)
  | .size => (.count (Spsc.size c r.tail r.head), r)

/-! ## The bounded queue -/

/-- A FIFO queue of capacity `cap`, oldest item first. -/
def queue (cap : Nat) (q : List T) : Call T → Answer T × List T
  | .push x | .pushMove x =>
      if q.length = cap then (.accepted false, q) else (.accepted true, q ++ [x])
  | .pop => (.item q.head?, q.tail)
  | .peek => (.item q.head?, q)
  | .empty => (.flag (decide (q.length = 0)), q)
  | .full => (.flag (decide (q.length = cap)), q)
  | .size => (.count q.length, q)

/-! ## The abstraction -/

/-- The ring holds `q`: `h` is the number of items popped so far. -/
structure Holds (c : Capacity) (r : Ring T) (q : List T) (h : Nat) : Prop where
  head : r.head = h % c.N
  tail : r.tail = (h + q.length) % c.N
  room : q.length ≤ c.N - 1
  items : ∀ i x, q[i]? = some x → r.buf ((h + i) % c.N) = x

variable {c : Capacity} {r : Ring T} {q : List T} {h : Nat}

/-- The index test of `pop`, `peek` and `empty`. -/
theorem Holds.empty_iff (hI : Holds c r q h) : r.head = r.tail ↔ q = [] := by
  have hpos := c.two_le
  have hroom := hI.room
  rw [hI.head, hI.tail]
  constructor
  · intro heq
    have := eq_of_mod_eq (n := c.N) (by omega) (by omega) heq
    exact List.length_eq_zero_iff.mp (by omega)
  · rintro rfl
    rfl

/-- The index test of `push` and `full`. -/
theorem Holds.full_iff (hI : Holds c r q h) :
    c.next r.tail = r.head ↔ q.length = c.N - 1 := by
  have hpos := c.two_le
  have hroom := hI.room
  rw [hI.head, hI.tail, c.next_mod]
  constructor
  · intro heq
    by_contra hne
    have := eq_of_mod_eq (n := c.N) (by omega) (by omega) heq.symm
    omega
  · intro heq
    rw [show h + q.length + 1 = h + c.N by omega, Nat.add_mod_right]

theorem Holds.size_eq (hI : Holds c r q h) : Spsc.size c r.tail r.head = q.length := by
  have hpos := c.two_le
  have hroom := hI.room
  rw [hI.head, hI.tail, size_mod c (by omega) (by omega)]
  omega

/-- The item behind `head_`. -/
theorem Holds.oldest (hI : Holds c r q h) {x : T} {rest : List T} (hq : q = x :: rest) :
    r.buf r.head = x := by
  have hx := hI.items 0 x (by rw [hq]; rfl)
  rwa [Nat.add_zero, ← hI.head] at hx

theorem Holds.push (hI : Holds c r q h) (hroom : q.length ≠ c.N - 1) (x : T) :
    r.push c x = (true, { r with
        tail := c.next r.tail, buf := fun i => if i = r.tail then x else r.buf i }) ∧
      Holds c (r.push c x).2 (q ++ [x]) h := by
  have hne : ¬ c.next r.tail = r.head := mt hI.full_iff.mp hroom
  have hpos := c.two_le
  have hle := hI.room
  simp only [Ring.push, if_neg hne]
  refine ⟨trivial, ⟨hI.head, ?_, ?_, ?_⟩⟩
  · show c.next r.tail = _
    rw [hI.tail, c.next_mod, List.length_append, List.length_singleton, ← Nat.add_assoc]
  · rw [List.length_append, List.length_singleton]
    omega
  · intro i y hy
    show (if (h + i) % c.N = r.tail then x else r.buf ((h + i) % c.N)) = y
    rcases getElem?_stored hy with hy | ⟨rfl, rfl⟩
    · -- a slot in use is not the one being written
      have hi := (List.getElem?_eq_some_iff.mp hy).1
      have hslot : (h + i) % c.N ≠ r.tail := by
        intro heq
        rw [hI.tail] at heq
        have := eq_of_mod_eq (n := c.N) (by omega) (by omega) heq
        omega
      rw [if_neg hslot]
      exact hI.items i y hy
    · rw [if_pos hI.tail.symm]

theorem Holds.pop {x : T} {rest : List T} (hI : Holds c r (x :: rest) h) :
    r.pop c = (some x, { r with head := c.next r.head }) ∧
      Holds c (r.pop c).2 rest (h + 1) := by
  have hne : ¬ r.head = r.tail := fun heq => by cases hI.empty_iff.mp heq
  have hle := hI.room
  simp only [Ring.pop, if_neg hne, hI.oldest rfl]
  refine ⟨trivial, ⟨?_, ?_, ?_, ?_⟩⟩
  · show c.next r.head = _
    rw [hI.head, c.next_mod]
  · rw [hI.tail, List.length_cons]
    congr 1
    omega
  · rw [List.length_cons] at hle
    omega
  · intro i y hy
    have hitem := hI.items (i + 1) y (by rw [List.getElem?_cons_succ]; exact hy)
    rwa [show h + 1 + i = h + (i + 1) by omega]

/-- A `push` of either overload. -/
theorem Holds.call_push (hI : Holds c r q h) (x : T) :
    Answer.accepted (r.push c x).1 = (queue (c.N - 1) q (.push x)).1 ∧
      Holds c (r.push c x).2 (queue (c.N - 1) q (.push x)).2 h := by
  by_cases hfull : q.length = c.N - 1
  · simp only [queue, if_pos hfull, Ring.push, if_pos (hI.full_iff.mpr hfull)]
    exact ⟨trivial, hI⟩
  · obtain ⟨hpush, hI'⟩ := hI.push hfull x
    simp only [queue, if_neg hfull]
    exact ⟨by rw [hpush], hI'⟩

theorem Holds.call_pop (hI : Holds c r q h) :
    (r.pop c).1 = q.head? ∧ ∃ h', Holds c (r.pop c).2 q.tail h' := by
  cases q with
  | nil =>
      simp only [Ring.pop, if_pos (hI.empty_iff.mpr rfl)]
      exact ⟨rfl, h, hI⟩
  | cons x rest =>
      obtain ⟨hpop, hI'⟩ := hI.pop
      exact ⟨by rw [hpop]; rfl, h + 1, hI'⟩

theorem Holds.peek_eq (hI : Holds c r q h) : r.peek.map r.buf = q.head? := by
  cases q with
  | nil =>
      simp only [Ring.peek, if_pos (hI.empty_iff.mpr rfl)]
      rfl
  | cons x rest =>
      have hne : ¬ r.head = r.tail := fun heq => by cases hI.empty_iff.mp heq
      simp only [Ring.peek, if_neg hne, Option.map_some, hI.oldest rfl]
      rfl

/-- **The ring refines the queue**, call by call. -/
theorem call_simulates (c : Capacity) :
    Simulates (Ring.call c) (queue (T := T) (c.N - 1)) fun r q => ∃ h, Holds c r q h where
  answer := by
    rintro r q k ⟨h, hI⟩
    cases k with
    | push x => exact (hI.call_push x).1
    | pushMove x => exact (hI.call_push x).1
    | pop => exact congrArg Answer.item hI.call_pop.1
    | peek => exact congrArg Answer.item hI.peek_eq
    | empty =>
        refine congrArg Answer.flag ?_
        rw [Spsc.empty, beq_eq_decide]
        exact decide_eq_decide.mpr (hI.empty_iff.trans List.length_eq_zero_iff.symm)
    | full =>
        refine congrArg Answer.flag ?_
        rw [Spsc.full, beq_eq_decide]
        exact decide_eq_decide.mpr hI.full_iff
    | size => exact congrArg Answer.count hI.size_eq
  keeps := by
    rintro r q k ⟨h, hI⟩
    cases k with
    | push x => exact ⟨h, (hI.call_push x).2⟩
    | pushMove x => exact ⟨h, (hI.call_push x).2⟩
    | pop => exact hI.call_pop.2
    | peek | empty | full | size => exact ⟨h, hI⟩

theorem holds_fresh (c : Capacity) (b : Nat → T) : Holds c (Ring.fresh b) [] 0 where
  head := (Nat.zero_mod _).symm
  tail := (Nat.zero_mod _).symm
  room := Nat.zero_le _
  items := by
    intro i x hx
    cases hx

/-- **Sequential refinement of the ring.** For every capacity, every
sequence of calls and every content of the fresh `buf_`, the answers are
those of the bounded queue; and a `push` of either overload is refused
exactly when the queue holds `N - 1` items, and then leaves the ring as
it was. -/
theorem ring_refines_queue (c : Capacity) (b : Nat → T) (ks : List (Call T)) :
    answers (Ring.call c) (Ring.fresh b) ks = answers (queue (c.N - 1)) [] ks ∧
      ∀ x, let r := after (Ring.call c) (Ring.fresh b) ks
        let q := after (queue (c.N - 1)) [] ks
        ((r.push c x).1 = false ↔ q.length = c.N - 1) ∧
          ((r.pushMove c x).1 = false ↔ q.length = c.N - 1) ∧
          ((r.push c x).1 = false → (r.push c x).2 = r ∧ (r.pushMove c x).2 = r) := by
  have hsim := call_simulates (T := T) c
  have hfresh : ∃ h, Holds c (Ring.fresh b) [] h := ⟨0, holds_fresh c b⟩
  refine ⟨hsim.answers_eq hfresh ks, fun x => ?_⟩
  obtain ⟨h, hI⟩ := hsim.after hfresh ks
  dsimp only
  generalize after (Ring.call c) (Ring.fresh b) ks = r at hI ⊢
  generalize after (queue (c.N - 1)) [] ks = q at hI ⊢
  by_cases hfull : c.next r.tail = r.head
  · have hlen := hI.full_iff.mp hfull
    simp [Ring.pushMove, Ring.push, hfull, hlen]
  · have hlen := mt hI.full_iff.mpr hfull
    simp [Ring.pushMove, Ring.push, hfull, hlen]

/-! ## A sequential call is a run of the interleaved ring -/

section Interleaved

variable {ι α : Type} {L : TriviallyCopyable T ι α} {s : State T ι α}

/-- An interleaved state between calls, seen as a sequential ring. -/
structure Quiet (L : TriviallyCopyable T ι α) (s : State T ι α) (r : Ring T) : Prop where
  prod : s.prod = .idle
  cons : s.cons = .idle
  tail : ∃ v, s.tail.getLast? = some v ∧ v.1 = r.tail ∧ v.2 < s.bufs.length
  head : s.head.getLast? = some r.head
  buf : ∃ b, s.bufs.getLast? = some b ∧ ∀ i, L.assemble (b i) = r.buf i
  headSeen : s.headSeen < s.head.length
  tailSeen : s.tailSeen < s.tail.length
  visible : s.visible < s.bufs.length

theorem quiet_init (b : Nat → ι → α) :
    Quiet L (init b) (Ring.fresh fun i => L.assemble (b i)) where
  prod := rfl
  cons := rfl
  tail := ⟨_, rfl, rfl, Nat.zero_lt_one⟩
  head := rfl
  buf := ⟨b, rfl, fun _ => rfl⟩
  headSeen := Nat.zero_lt_one
  tailSeen := Nat.zero_lt_one
  visible := Nat.zero_lt_one

/-- The producer may load the newest `head_`. -/
theorem Quiet.loadHead (hQ : Quiet L s r) :
    s.loadHead (s.head.length - 1) = some r.head := by
  have hseen := hQ.headSeen
  rw [State.loadHead, if_pos (by omega), ← List.getLast?_eq_getElem?]
  exact hQ.head

/-- The consumer may load the newest `tail_`. -/
theorem Quiet.loadTail (hQ : Quiet L s r) {v : Nat × Nat} (hv : s.tail.getLast? = some v) :
    s.loadTail (s.tail.length - 1) = some v := by
  have hseen := hQ.tailSeen
  rw [State.loadTail, if_pos (by omega), ← List.getLast?_eq_getElem?]
  exact hv

variable [Fintype ι] [DecidableEq ι]

/-- An uninterrupted `push` returns, with the sequential ring's answer. -/
theorem push_runs (hQ : Quiet L s r) (x : T) :
    ∃ t, Reachable (step L c) s t ∧ Quiet L t (r.push c x).2 ∧
      t.pushed = s.pushed ++ (if (r.push c x).1 then [x] else []) ∧ t.popped = s.popped := by
  obtain ⟨v, hv, hvt, -⟩ := hQ.tail
  obtain ⟨b, hb, hbuf⟩ := hQ.buf
  have hseen : s.head.length - 1 < s.head.length :=
    Nat.sub_lt (Nat.zero_lt_of_lt hQ.headSeen) Nat.zero_lt_one
  by_cases hfull : c.next r.tail = r.head
  · refine ⟨_, ⟨_, run_pushRefused x hQ.prod hv hQ.loadHead (by rw [hvt]; exact hfull)⟩, ?_, ?_,
      rfl⟩
    · simp only [Ring.push, if_pos hfull]
      exact { hQ with prod := rfl, headSeen := hseen }
    · simp [Ring.push, hfull]
  · obtain ⟨ws, _, hrun, bufs, b', rfl, hlast, hlen, hother, hwords⟩ :=
      run_push (L := L) x hQ.prod hv hQ.loadHead (by rw [hvt]; exact hfull) hb
    have hvisible : s.visible < bufs.length := Nat.lt_of_lt_of_le hQ.visible hlen
    refine ⟨_, ⟨_, hrun⟩, ?_, by simp [Ring.push, hfull], rfl⟩
    simp only [Ring.push, if_neg hfull]
    refine ⟨rfl, hQ.cons, ⟨_, List.getLast?_concat .., ?_, ?_⟩, hQ.head, ⟨b', hlast, ?_⟩, hseen,
      ?_, hvisible⟩
    · rw [hvt]
    · exact Nat.sub_lt (Nat.zero_lt_of_lt hvisible) Nat.zero_lt_one
    · intro i
      show L.assemble (b' i) = if i = r.tail then x else r.buf i
      by_cases hi : i = r.tail
      · rw [if_pos hi, hi, ← hvt, hwords, L.assemble_words]
      · rw [if_neg hi, hother i (by rw [hvt]; exact hi)]
        exact hbuf i
    · rw [List.length_append]
      exact Nat.lt_add_right _ hQ.tailSeen

/-- An uninterrupted `pop` returns, with the sequential ring's answer. -/
theorem pop_runs (hQ : Quiet L s r) :
    ∃ t, Reachable (step L c) s t ∧ Quiet L t (r.pop c).2 ∧
      t.popped = s.popped ++ (r.pop c).1.toList ∧ t.pushed = s.pushed := by
  obtain ⟨v, hv, hvt, hver⟩ := id hQ.tail
  obtain ⟨b, hb, hbuf⟩ := hQ.buf
  have hacq : Quiet L (s.acquire (s.tail.length - 1) v) r :=
    { hQ with
      tailSeen := Nat.sub_lt (Nat.zero_lt_of_lt hQ.tailSeen) Nat.zero_lt_one
      visible := Nat.max_lt.mpr ⟨hQ.visible, hver⟩ }
  by_cases hempty : r.head = r.tail
  · refine ⟨_, ⟨_, run_popEmpty hQ.cons hQ.head (hQ.loadTail hv) (by rw [hvt]; exact hempty)⟩,
      ?_, ?_, rfl⟩
    · simp only [Ring.pop, if_pos hempty]
      exact { hacq with cons := rfl }
    · simp [Ring.pop, hempty, State.acquire]
  · obtain ⟨ws, hrun⟩ := run_pop (L := L) (c := c) hQ.cons hQ.head (hQ.loadTail hv)
      (by rw [hvt]; exact hempty) hb hQ.visible hver
    refine ⟨_, ⟨_, hrun⟩, ?_, by simp [Ring.pop, hempty, hbuf], rfl⟩
    simp only [Ring.pop, if_neg hempty]
    refine { hacq with cons := rfl, head := List.getLast?_concat .., headSeen := ?_ }
    rw [List.length_append]
    exact Nat.lt_add_right _ hQ.headSeen

/-- Call after call, from any state between two calls. -/
theorem Quiet.run_calls (hQ : Quiet L s r) (ks : List (Call T)) :
    ∃ t, Reachable (step L c) s t ∧ Quiet L t (after (Ring.call c) r ks) := by
  induction ks generalizing s r with
  | nil => exact ⟨s, Reachable.refl s, hQ⟩
  | cons k ks ih =>
      cases k with
      | push x | pushMove x =>
          obtain ⟨t, ht, hQ', -⟩ := push_runs (c := c) hQ x
          obtain ⟨u, hu, hQu⟩ := ih hQ'
          exact ⟨u, ht.trans hu, hQu⟩
      | pop =>
          obtain ⟨t, ht, hQ', -⟩ := pop_runs (c := c) hQ
          obtain ⟨u, hu, hQu⟩ := ih hQ'
          exact ⟨u, ht.trans hu, hQu⟩
      | peek | empty | full | size => exact ih hQ

/-- **Every sequential use of the ring is a run of the interleaved one.** -/
theorem sequential_reachable (L : TriviallyCopyable T ι α) (c : Capacity) (b : Nat → ι → α)
    (ks : List (Call T)) :
    ∃ t, Reachable (step L c) (init b) t ∧
      Quiet L t (after (Ring.call c) (Ring.fresh fun i => L.assemble (b i)) ks) :=
  (quiet_init b).run_calls ks

end Interleaved

end UltrafastFeed.Spsc
