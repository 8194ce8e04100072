import Mathlib.Algebra.Ring.Nat
import Mathlib.Data.Fintype.Basic
import Mathlib.Data.List.Basic
import Mathlib.Tactic.Common

/-!
# Spsc — Model

`SpscRingBuffer<T, N>` (`spsc_ring_buffer.hpp`) as two interleaved
parties. A `push` or a `pop` is not one step: the party loads its own
index, loads the other party's index, copies the item word by word and
stores its advanced index, and the other party may run between any two
of these.

MEMORY. Each index keeps the whole sequence of values stored to it. A
load of the other party's index returns ANY of these that is not older
than one the party has already observed. `buf_` keeps the sequence of
its versions, one per word written; a store to `tail_` carries the
version it was made at, and a consumer that loads that value sees this
version or any later one, word by word and independently for each word.
Nothing else orders the buffer accesses of the two sides.
-/

namespace UltrafastFeed.Spsc

/-! ## The template parameters -/

/-- The parameter `N` with its `static_assert`: at least two and a power
of two. It is a `std::size_t`. -/
structure Capacity where
  N : Nat
  two_le : 2 ≤ N
  pow2 : N &&& (N - 1) = 0
  fits : N < 2 ^ 64

/-- `kMask`. -/
def Capacity.mask (c : Capacity) : Nat := c.N - 1

/-- `(i + 1U) & kMask`, the addition in `std::size_t`. -/
def Capacity.next (c : Capacity) (i : Nat) : Nat :=
  (i + 1) % 2 ^ 64 &&& c.mask

/-- `std::is_trivially_copyable_v<T>`: a value is its words, and copying
the words copies the value. -/
structure TriviallyCopyable (T ι α : Type) where
  words : T → ι → α
  assemble : (ι → α) → T
  assemble_words : ∀ x, assemble (words x) = x

/-! ## The results of the state queries, on the index values they load -/

/-- `empty()` on the loaded `head_` and `tail_`. -/
def empty (h t : Nat) : Bool := h == t

/-- `full()` on the loaded `tail_` and `head_`. -/
def full (c : Capacity) (t h : Nat) : Bool := c.next t == h

/-- `size()`: `(t - h + N) & kMask` in `std::size_t`. -/
def size (c : Capacity) (t h : Nat) : Nat :=
  (t + (2 ^ 64 - h) + c.N) % 2 ^ 64 &&& c.mask

/-! ## The two parties -/

/-- Where the producer is. `loaded x t`: inside `push(x)`, with `t`
loaded from `tail_`. `copying x t todo`: the fullness test passed and
the words `todo` of `x` are still to be written to `buf_[t]`. -/
inductive Producer (T ι : Type) where
  | idle
  | loaded (x : T) (t : Nat)
  | copying (x : T) (t : Nat) (todo : Finset ι)

/-- Where the consumer is. `loaded h`: inside `pop()`, with `h` loaded
from `head_`. `copying h item`: the emptiness test passed and the words
of `buf_[h]` read so far are in `item`. -/
inductive Consumer (ι α : Type) where
  | idle
  | loaded (h : Nat)
  | copying (h : Nat) (item : ι → Option α)

/-- One state of the ring and of its two parties. -/
structure State (T ι α : Type) where
  /-- The values stored to `tail_`, oldest first, each with the version
  of `buf_` that its release store publishes. -/
  tail : List (Nat × Nat)
  /-- The values stored to `head_`, oldest first. -/
  head : List Nat
  /-- The versions of `buf_`, oldest first. -/
  bufs : List (Nat → ι → α)
  /-- Position in `head` of the newest value the producer has observed. -/
  headSeen : Nat
  /-- Position in `tail` of the newest value the consumer has observed. -/
  tailSeen : Nat
  /-- The oldest version of `buf_` the consumer can still read. -/
  visible : Nat
  prod : Producer T ι
  cons : Consumer ι α
  /-- The items whose `push` stored `tail_`. -/
  pushed : List T
  /-- The values returned by the `pop`s that stored `head_`. -/
  popped : List T

/-- The state queries. A party's own index does not move during its own
call, so a query is one load of the other party's index. -/
inductive Query where
  | empty
  | full
  | size
  | peek
  deriving DecidableEq, Repr

/-- The steps. `j` is the position of the index value that a load of the
other party's index returns, `m` the version of `buf_` that a word is
read from. -/
inductive Action (T ι : Type) where
  | push (x : T)
  | pushCheck (j : Nat)
  | pushWord (w : ι)
  | pushStore
  | pushQuery (q : Query) (j : Nat)
  | pop
  | popCheck (j : Nat)
  | popWord (w : ι) (m : Nat)
  | popStore
  | popQuery (q : Query) (j : Nat)

variable {T ι α : Type}

/-- A fresh ring: both indices `0`, and `buf_` as constructed. -/
def init (b : Nat → ι → α) : State T ι α where
  tail := [(0, 0)]
  head := [0]
  bufs := [b]
  headSeen := 0
  tailSeen := 0
  visible := 0
  prod := .idle
  cons := .idle
  pushed := []
  popped := []

/-- A load of `head_` by the producer that returns the value at `j`. -/
def State.loadHead (s : State T ι α) (j : Nat) : Option Nat :=
  if s.headSeen ≤ j then s.head[j]? else none

/-- A load of `tail_` by the consumer that returns the value at `j`. -/
def State.loadTail (s : State T ι α) (j : Nat) : Option (Nat × Nat) :=
  if s.tailSeen ≤ j then s.tail[j]? else none

/-- The state after the consumer loaded `v` from `tail_`: the version
that the store of `v` published is visible from now on. -/
def State.acquire (s : State T ι α) (j : Nat) (v : Nat × Nat) : State T ι α :=
  { s with tailSeen := j, visible := max s.visible v.2 }

/-- `buf_` with word `w` of slot `t` overwritten. -/
def writeWord [DecidableEq ι] (b : Nat → ι → α) (t : Nat) (w : ι) (a : α) :
    Nat → ι → α :=
  fun i k => if i = t ∧ k = w then a else b i k

section

variable [Fintype ι] [DecidableEq ι]

/-- The item once every word of it has been read. -/
def complete? (item : ι → Option α) : Option (ι → α) :=
  if h : ∀ w, (item w).isSome then some fun w => (item w).get (h w) else none

/-- One step of either party. -/
def step (L : TriviallyCopyable T ι α) (c : Capacity) (s : State T ι α) :
    Action T ι → Option (State T ι α)
  | .push x =>
      match s.prod, s.tail.getLast? with
      | .idle, some v => some { s with prod := .loaded x v.1 }
      | _, _ => none
  | .pushCheck j =>
      match s.prod, s.loadHead j with
      | .loaded x t, some h =>
          if c.next t = h then
            -- full: `push` returns false
            some { s with headSeen := j, prod := .idle }
          else
            some { s with headSeen := j, prod := .copying x t Finset.univ }
      | _, _ => none
  | .pushWord w =>
      match s.prod, s.bufs.getLast? with
      | .copying x t todo, some b =>
          if w ∈ todo then
            some { s with
              bufs := s.bufs ++ [writeWord b t w (L.words x w)]
              prod := .copying x t (todo.erase w) }
          else none
      | _, _ => none
  | .pushStore =>
      match s.prod with
      | .copying x t todo =>
          if todo = ∅ then
            some { s with
              tail := s.tail ++ [(c.next t, s.bufs.length - 1)]
              prod := .idle
              pushed := s.pushed ++ [x] }
          else none
      | _ => none
  | .pushQuery _ j =>
      match s.prod, s.loadHead j with
      | .idle, some _ => some { s with headSeen := j }
      | _, _ => none
  | .pop =>
      match s.cons, s.head.getLast? with
      | .idle, some h => some { s with cons := .loaded h }
      | _, _ => none
  | .popCheck j =>
      match s.cons, s.loadTail j with
      | .loaded h, some v =>
          if h = v.1 then
            -- empty: `pop` returns `std::nullopt`
            some { s.acquire j v with cons := .idle }
          else
            some { s.acquire j v with cons := .copying h fun _ => none }
      | _, _ => none
  | .popWord w m =>
      match s.cons, s.bufs[m]? with
      | .copying h item, some b =>
          if s.visible ≤ m ∧ item w = none then
            some { s with
              cons := .copying h fun k => if k = w then some (b h w) else item k }
          else none
      | _, _ => none
  | .popStore =>
      match s.cons with
      | .copying h item =>
          match complete? item with
          | some f =>
              some { s with
                head := s.head ++ [c.next h]
                cons := .idle
                popped := s.popped ++ [L.assemble f] }
          | none => none
      | _ => none
  | .popQuery _ j =>
      match s.cons, s.loadTail j with
      | .idle, some v => some (s.acquire j v)
      | _, _ => none

end

end UltrafastFeed.Spsc
