import UltrafastFeed.Spsc.Alone
import UltrafastFeed.Spsc.Fifo

/-!
# Spsc — Queries

What a party may conclude from a state query while the other one keeps
moving. A query loads the other party's index, possibly a stale value of
it; but what it has loaded once the party has OBSERVED, and later loads
return nothing older. So the consumer's `size()` counts items that stay
until the consumer takes them, and the producer's `size()` leaves room
that stays until the producer fills it.

`popResults` and `pushResults` are what the calls of a run return, in
order, whoever moves in between.
-/

namespace UltrafastFeed.Spsc

open Lib.Run

variable {T ι α : Type}

/-! ## What the calls return -/

/-- What a step into `t` returns to the caller of `push`: the fullness
test that ends the call returns false, the store of `tail_` true. -/
def pushResult : Action T ι → State T ι α → Option Bool
  | .pushCheck _, t =>
      match t.prod with
      | .idle => some false
      | _ => none
  | .pushStore, _ => some true
  | _, _ => none

/-- What a step into `t` returns to the caller of `pop`: whether there is
an item. -/
def popResult : Action T ι → State T ι α → Option Bool
  | .popCheck _, t =>
      match t.cons with
      | .idle => some false
      | _ => none
  | .popStore, _ => some true
  | _, _ => none

/-- The values of `tail_` and `head_` that a query of the consumer loads,
`tail_` at position `j` of its history. -/
def State.consumerLoads (s : State T ι α) (j : Nat) : Option (Nat × Nat) :=
  match s.loadTail j, s.head.getLast? with
  | some v, some h => some (v.1, h)
  | _, _ => none

/-- The values of `tail_` and `head_` that a query of the producer loads,
`head_` at position `j` of its history. -/
def State.producerLoads (s : State T ι α) (j : Nat) : Option (Nat × Nat) :=
  match s.tail.getLast?, s.loadHead j with
  | some v, some h => some (v.1, h)
  | _, _ => none

section

variable [Fintype ι] [DecidableEq ι]

def popResults (L : TriviallyCopyable T ι α) (c : Capacity) :
    State T ι α → List (Action T ι) → List Bool :=
  collect (step L c) popResult

def pushResults (L : TriviallyCopyable T ι α) (c : Capacity) :
    State T ι α → List (Action T ι) → List Bool :=
  collect (step L c) pushResult

end

/-! ## Loads on counters -/

variable {L : TriviallyCopyable T ι α} {c : Capacity} {s t : State T ι α}

theorem RingInv.consumerLoads (hI : RingInv L c s) {j tl hd : Nat}
    (h : s.consumerLoads j = some (tl, hd)) :
    s.tailSeen ≤ j ∧ j ≤ s.pushed.length ∧ tl = j % c.N ∧ hd = s.popped.length % c.N := by
  rw [State.consumerLoads, hI.lastHead] at h
  split at h
  · rename_i v h' hl hh
    cases h
    cases hh
    obtain ⟨hle, hv⟩ := loadTail_some hl
    have hlen := (List.getElem?_eq_some_iff.mp hv).1
    have htl := hI.tailLen
    exact ⟨hle, by omega, hI.tailVal j v hv, rfl⟩
  · cases h

theorem RingInv.producerLoads (hI : RingInv L c s) {j tl hd : Nat}
    (h : s.producerLoads j = some (tl, hd)) :
    s.headSeen ≤ j ∧ j ≤ s.popped.length ∧ tl = s.pushed.length % c.N ∧ hd = j % c.N := by
  obtain ⟨v, hv, hv1, -⟩ := hI.lastTail
  rw [State.producerLoads, hv] at h
  split at h
  · rename_i v' h' hv' hl
    cases hv'
    cases h
    obtain ⟨hle, hh⟩ := loadHead_some hl
    have hlen := (List.getElem?_eq_some_iff.mp hh).1
    have hhl := hI.headLen
    exact ⟨hle, by omega, hv1, hI.headVal j _ hh⟩
  · cases h

/-- The consumer's `size()` is the number of items it has seen. -/
theorem RingInv.consumerSize (hI : RingInv L c s) {j tl hd : Nat}
    (h : s.consumerLoads j = some (tl, hd)) :
    size c tl hd = j - s.popped.length ∧ s.popped.length ≤ j ∧ size c tl hd ≤ c.N - 1 := by
  obtain ⟨hle, hj, rfl, rfl⟩ := hI.consumerLoads h
  have hpop := hI.popped_le
  have hgap := hI.gap
  have hseen := hI.headSeen
  have hpos := c.two_le
  have hsize := size_mod c (p := j) (q := s.popped.length) (by omega) (by omega)
  exact ⟨hsize, by omega, by rw [hsize]; omega⟩

/-- The producer's `size()` is what it believes to be in the ring. -/
theorem RingInv.producerSize (hI : RingInv L c s) {j tl hd : Nat}
    (h : s.producerLoads j = some (tl, hd)) :
    size c tl hd = s.pushed.length - j ∧ j ≤ s.pushed.length ∧ size c tl hd ≤ c.N - 1 := by
  obtain ⟨hle, hj, rfl, rfl⟩ := hI.producerLoads h
  have hpop := hI.popped_le
  have htail := hI.tailSeen
  have hgap := hI.gap
  have hpos := c.two_le
  have hsize := size_mod c (p := s.pushed.length) (q := j) (by omega) (by omega)
  exact ⟨hsize, by omega, by rw [hsize]; omega⟩

theorem size_pos_of_not_empty {j tl hd : Nat} (hI : RingInv L c s)
    (hl : s.consumerLoads j = some (tl, hd)) (he : empty hd tl = false) :
    1 ≤ size c tl hd := by
  obtain ⟨hsize, hle, -⟩ := hI.consumerSize hl
  obtain ⟨-, -, rfl, rfl⟩ := hI.consumerLoads hl
  rw [hsize]
  rcases Nat.lt_or_ge s.popped.length j with hlt | hge
  · omega
  · rw [Nat.le_antisymm hge hle] at he
    simp [empty] at he

theorem size_lt_of_not_full {j tl hd : Nat} (hI : RingInv L c s)
    (hl : s.producerLoads j = some (tl, hd)) (hf : full c tl hd = false) :
    1 ≤ c.N - 1 - size c tl hd := by
  obtain ⟨hsize, hle, -⟩ := hI.producerSize hl
  obtain ⟨hj, -, rfl, rfl⟩ := hI.producerLoads hl
  rw [hsize]
  have hgap := hI.gap
  have hpos := c.two_le
  by_contra hfull
  -- no room left means that the next tail is the loaded head
  have hnext : s.pushed.length + 1 = j + c.N := by omega
  simp only [full, c.next_mod, hnext, Nat.add_mod_right] at hf
  simp at hf

theorem exists_lastBuf (hvis : s.visible < s.bufs.length) :
    ∃ b, s.bufs.getLast? = some b := by
  have hne : s.bufs ≠ [] := List.ne_nil_of_length_pos (Nat.zero_lt_of_lt hvis)
  exact ⟨_, List.getLast?_eq_some_getLast hne⟩

theorem popCopySteps_byConsumer {m : Nat} {ws : List ι} :
    ∀ a ∈ popCopySteps (T := T) m ws, a.byProducer = false := by
  intro a ha
  rcases List.mem_append.mp ha with ha | ha
  · obtain ⟨w, -, rfl⟩ := List.mem_map.mp ha
    rfl
  · rw [List.mem_singleton.mp ha]
    rfl

theorem pushCopySteps_byProducer {ws : List ι} :
    ∀ a ∈ pushCopySteps (T := T) ws, a.byProducer = true := by
  intro a ha
  rcases List.mem_append.mp ha with ha | ha
  · obtain ⟨w, -, rfl⟩ := List.mem_map.mp ha
    rfl
  · rw [List.mem_singleton.mp ha]
    rfl

/-! ## One step -/

section Interleaved

variable [Fintype ι] [DecidableEq ι]

/-- What a step means for `pop`: the consumer forgets nothing it has
observed, and either nothing returns and nothing is popped, or an item is
returned, or nothing is, and then the consumer has observed no item
beyond those it popped. -/
theorem RingInv.step_pop (hI : RingInv L c s) {a : Action T ι}
    (h : Spsc.step L c s a = some t) :
    s.tailSeen ≤ t.tailSeen ∧
      ((popResult a t = none ∧ t.popped.length = s.popped.length) ∨
        (popResult a t = some true ∧ t.popped.length = s.popped.length + 1) ∨
        (popResult a t = some false ∧ s.tailSeen ≤ s.popped.length)) := by
  cases ha : a.byProducer with
  | true =>
      obtain ⟨-, hseen, -, -, hpopped⟩ := producer_frame ha h
      refine ⟨Nat.le_of_eq hseen.symm, .inl ⟨?_, congrArg List.length hpopped⟩⟩
      cases a with
      | push | pushCheck | pushWord | pushStore | pushQuery => rfl
      | _ => cases ha
  | false =>
      cases a with
      | pop =>
          obtain ⟨v, -, -, rfl⟩ := Spsc.step_pop h
          exact ⟨Nat.le_refl _, .inl ⟨rfl, rfl⟩⟩
      | popCheck j =>
          obtain ⟨i, v, hp, hj, hv, ⟨heq, rfl⟩ | ⟨-, rfl⟩⟩ := step_popCheck h
          · -- the loaded value is the head's own index, so its counter is too
            have hi : i = s.popped.length % c.N := by
              have := hI.cons
              rwa [ConsumerInv, hp] at this
            have hdrained := hI.drained hj hv hi heq
            exact ⟨hj, .inr (.inr ⟨rfl, by omega⟩)⟩
          · exact ⟨hj, .inl ⟨rfl, rfl⟩⟩
      | popWord w m =>
          obtain ⟨i, item, b, -, -, -, -, rfl⟩ := step_popWord h
          exact ⟨Nat.le_refl _, .inl ⟨rfl, rfl⟩⟩
      | popStore =>
          obtain ⟨i, item, f, -, -, rfl⟩ := step_popStore h
          exact ⟨Nat.le_refl _, .inr (.inl ⟨rfl, List.length_append⟩)⟩
      | popQuery q j =>
          obtain ⟨v, -, hj, -, rfl⟩ := step_popQuery h
          exact ⟨hj, .inl ⟨rfl, rfl⟩⟩
      | _ => cases ha

/-- What a step means for `push`. -/
theorem RingInv.step_push (hI : RingInv L c s) {a : Action T ι}
    (h : Spsc.step L c s a = some t) :
    s.headSeen ≤ t.headSeen ∧
      ((pushResult a t = none ∧ t.pushed.length = s.pushed.length) ∨
        (pushResult a t = some true ∧ t.pushed.length = s.pushed.length + 1) ∨
        (pushResult a t = some false ∧ s.headSeen + (c.N - 1) ≤ s.pushed.length)) := by
  cases ha : a.byProducer with
  | false =>
      obtain ⟨-, -, hseen, -, hpushed⟩ := consumer_frame ha h
      refine ⟨Nat.le_of_eq hseen.symm, .inl ⟨?_, congrArg List.length hpushed⟩⟩
      cases a with
      | pop | popCheck | popWord | popStore | popQuery => rfl
      | _ => cases ha
  | true =>
      cases a with
      | push x =>
          obtain ⟨v, -, -, rfl⟩ := Spsc.step_push h
          exact ⟨Nat.le_refl _, .inl ⟨rfl, rfl⟩⟩
      | pushCheck j =>
          obtain ⟨x, i, v, hp, hj, hv, ⟨heq, rfl⟩ | ⟨-, rfl⟩⟩ := step_pushCheck h
          · have hi : i = s.pushed.length % c.N := by
              have := hI.prod
              rwa [ProducerInv, hp] at this
            obtain ⟨-, hfull⟩ := hI.full hj hv hi heq
            exact ⟨hj, .inr (.inr ⟨rfl, by omega⟩)⟩
          · exact ⟨hj, .inl ⟨rfl, rfl⟩⟩
      | pushWord w =>
          obtain ⟨x, i, todo, b, -, -, -, rfl⟩ := step_pushWord h
          exact ⟨Nat.le_refl _, .inl ⟨rfl, rfl⟩⟩
      | pushStore =>
          obtain ⟨x, i, -, rfl⟩ := step_pushStore h
          exact ⟨Nat.le_refl _, .inr (.inl ⟨rfl, List.length_append⟩)⟩
      | pushQuery q j =>
          obtain ⟨v, -, hj, -, rfl⟩ := step_pushQuery h
          exact ⟨hj, .inl ⟨rfl, rfl⟩⟩
      | _ => cases ha

/-- The consumer never has to wait for a version of `buf_`. -/
theorem RingInv.step_visible (hI : RingInv L c s) (hvis : s.visible < s.bufs.length)
    {a : Action T ι} (h : Spsc.step L c s a = some t) : t.visible < t.bufs.length := by
  cases a with
  | push x =>
      obtain ⟨v, -, -, rfl⟩ := Spsc.step_push h
      exact hvis
  | pushCheck j =>
      obtain ⟨x, i, v, -, -, -, ⟨-, rfl⟩ | ⟨-, rfl⟩⟩ := step_pushCheck h
      · exact hvis
      · exact hvis
  | pushWord w =>
      obtain ⟨x, i, todo, b, -, -, -, rfl⟩ := step_pushWord h
      rw [List.length_append]
      exact Nat.lt_add_right _ hvis
  | pushStore =>
      obtain ⟨x, i, -, rfl⟩ := step_pushStore h
      exact hvis
  | pushQuery q j =>
      obtain ⟨v, -, -, -, rfl⟩ := step_pushQuery h
      exact hvis
  | pop =>
      obtain ⟨v, -, -, rfl⟩ := Spsc.step_pop h
      exact hvis
  | popCheck j =>
      obtain ⟨i, v, -, -, hv, ⟨-, rfl⟩ | ⟨-, rfl⟩⟩ := step_popCheck h
      · exact Nat.max_lt.mpr ⟨hvis, hI.tailVer j v hv⟩
      · exact Nat.max_lt.mpr ⟨hvis, hI.tailVer j v hv⟩
  | popWord w m =>
      obtain ⟨i, item, b, -, -, -, -, rfl⟩ := step_popWord h
      exact hvis
  | popStore =>
      obtain ⟨i, item, f, -, -, rfl⟩ := step_popStore h
      exact hvis
  | popQuery q j =>
      obtain ⟨v, -, -, hv, rfl⟩ := step_popQuery h
      exact Nat.max_lt.mpr ⟨hvis, hI.tailVer j v hv⟩

theorem visible_reachable {b : Nat → ι → α} (h : Reachable (step L c) (init b) s) :
    RingInv L c s ∧ s.visible < s.bufs.length :=
  h.invariant (I := fun s => RingInv L c s ∧ s.visible < s.bufs.length)
    (fun _ _ _ hs ht => ⟨hs.1.step ht, hs.1.step_visible hs.2 ht⟩)
    ⟨inv_init b, Nat.zero_lt_one⟩

/-! ## What a party can count on -/

/-- The items the consumer has seen and not taken. -/
def State.popCredit (s : State T ι α) : Nat := s.tailSeen - s.popped.length

/-- The slots the producer has seen free and not filled. -/
def State.pushCredit (c : Capacity) (s : State T ι α) : Nat :=
  s.headSeen + (c.N - 1) - s.pushed.length

theorem RingInv.spends_pop (hI : RingInv L c s) {a : Action T ι}
    (h : Spsc.step L c s a = some t) : Spends State.popCredit s t (popResult a t) := by
  obtain ⟨hseen, ⟨hr, hlen⟩ | ⟨hr, hlen⟩ | ⟨hr, hnone⟩⟩ := hI.step_pop h
  · rw [hr]
    show s.tailSeen - s.popped.length ≤ t.tailSeen - t.popped.length
    omega
  · rw [hr]
    show s.tailSeen - s.popped.length ≤ t.tailSeen - t.popped.length + 1
    omega
  · rw [hr]
    exact Nat.sub_eq_zero_of_le hnone

theorem RingInv.spends_push (hI : RingInv L c s) {a : Action T ι}
    (h : Spsc.step L c s a = some t) :
    Spends (State.pushCredit c) s t (pushResult a t) := by
  obtain ⟨hseen, ⟨hr, hlen⟩ | ⟨hr, hlen⟩ | ⟨hr, hnone⟩⟩ := hI.step_push h
  · rw [hr]
    show s.headSeen + (c.N - 1) - s.pushed.length ≤ t.headSeen + (c.N - 1) - t.pushed.length
    omega
  · rw [hr]
    show s.headSeen + (c.N - 1) - s.pushed.length
      ≤ t.headSeen + (c.N - 1) - t.pushed.length + 1
    omega
  · rw [hr]
    exact Nat.sub_eq_zero_of_le hnone

/-! ## With credit left, the party's own steps end its call -/

/-- Wherever the consumer is, in a call or between two, it takes an item
by its own steps. -/
theorem RingInv.pop_returns (hI : RingInv L c s) (hvis : s.visible < s.bufs.length)
    (hcredit : 0 < s.popCredit) :
    ∃ (bs : List (Action T ι)) (u : State T ι α) (x : T),
      (∀ a ∈ bs, a.byProducer = false) ∧ run (Spsc.step L c) s bs = some u ∧
        u.popped = s.popped ++ [x] := by
  have hlt : s.popped.length < s.tailSeen := Nat.lt_of_sub_pos hcredit
  obtain ⟨b, hb⟩ := exists_lastBuf hvis
  -- it may load again what it has observed, and that is not its own index
  have hlen : s.tailSeen < s.tail.length := by
    have := hI.tailSeen
    rw [hI.tailLen]
    omega
  have hv := List.getElem?_eq_getElem hlen
  have hload : s.loadTail s.tailSeen = some s.tail[s.tailSeen] := by
    rw [State.loadTail, if_pos (Nat.le_refl _), hv]
  have hver := hI.tailVer _ _ hv
  have hitem : s.popped.length % c.N ≠ (s.tail[s.tailSeen]).1 := by
    intro heq
    have hdrained := hI.drained (Nat.le_refl _) hv rfl heq
    omega
  have hcons := hI.cons
  cases hp : s.cons with
  | idle =>
      obtain ⟨ws, hrun⟩ := run_pop (L := L) hp hI.lastHead hload hitem hb hvis hver
      refine ⟨_, _, _, ?_, hrun, rfl⟩
      exact List.forall_mem_cons.mpr
        ⟨rfl, List.forall_mem_cons.mpr ⟨rfl, popCopySteps_byConsumer⟩⟩
  | loaded i =>
      rw [ConsumerInv, hp] at hcons
      obtain ⟨ws, hrun⟩ := run_popLoaded (L := L) (c := c) hp hload
        (by rw [hcons]; exact hitem) hb hvis hver
      refine ⟨_, _, _, ?_, hrun, rfl⟩
      exact List.forall_mem_cons.mpr ⟨rfl, popCopySteps_byConsumer⟩
  | copying i item =>
      obtain ⟨ws, hrun⟩ := run_popCopying (L := L) (c := c) hp hb hvis
      exact ⟨_, _, _, popCopySteps_byConsumer, hrun, rfl⟩

/-- The item of the producer's current call, or of its next one. -/
def Producer.item (x : T) : Producer T ι → T
  | .idle => x
  | .loaded y _ => y
  | .copying y _ _ => y

theorem RingInv.push_returns (hI : RingInv L c s) (hvis : s.visible < s.bufs.length)
    (hcredit : 0 < s.pushCredit c) (x : T) :
    ∃ (bs : List (Action T ι)) (u : State T ι α),
      (∀ a ∈ bs, a.byProducer = true) ∧ run (Spsc.step L c) s bs = some u ∧
        u.pushed = s.pushed ++ [s.prod.item x] := by
  have hlt : s.pushed.length < s.headSeen + (c.N - 1) := Nat.lt_of_sub_pos hcredit
  obtain ⟨b, hb⟩ := exists_lastBuf hvis
  obtain ⟨v, hv, hv1, -⟩ := hI.lastTail
  have hlen : s.headSeen < s.head.length := by
    have := hI.headSeen
    rw [hI.headLen]
    omega
  have hh := List.getElem?_eq_getElem hlen
  have hload : s.loadHead s.headSeen = some s.head[s.headSeen] := by
    rw [State.loadHead, if_pos (Nat.le_refl _), hh]
  have hroom : c.next (s.pushed.length % c.N) ≠ s.head[s.headSeen] := by
    intro hfull
    have := (hI.full (Nat.le_refl _) hh rfl hfull).2
    omega
  have hprod := hI.prod
  cases hp : s.prod with
  | idle =>
      obtain ⟨ws, _, hrun, _, _, rfl, -⟩ := run_push (L := L) x hp hv hload
        (by rw [hv1]; exact hroom) hb
      refine ⟨_, _, ?_, hrun, rfl⟩
      exact List.forall_mem_cons.mpr
        ⟨rfl, List.forall_mem_cons.mpr ⟨rfl, pushCopySteps_byProducer⟩⟩
  | loaded y i =>
      rw [ProducerInv, hp] at hprod
      obtain ⟨ws, _, hrun, _, _, rfl, -⟩ := run_pushLoaded (L := L) (c := c) hp hload
        (by rw [hprod]; exact hroom) hb
      refine ⟨_, _, ?_, hrun, rfl⟩
      exact List.forall_mem_cons.mpr ⟨rfl, pushCopySteps_byProducer⟩
  | copying y i todo =>
      rw [ProducerInv, hp] at hprod
      obtain ⟨ws, _, hrun, _, _, rfl, -⟩ := run_pushCopying (L := L) (c := c) hp hb
        (fun w hw => hprod.2.2 b w hb hw)
      exact ⟨_, _, pushCopySteps_byProducer, hrun, rfl⟩

/-! ## The answers are safe to act on -/

/-- The next `n` calls of `pop` from `s` on return an item, whatever
either party does: those that return do, and as long as fewer have
returned the consumer's own steps make the next one return. -/
def PopsSucceed (L : TriviallyCopyable T ι α) (c : Capacity) (s : State T ι α)
    (n : Nat) : Prop :=
  ∀ (as : List (Action T ι)) (u : State T ι α), run (step L c) s as = some u →
    (∀ ok ∈ (popResults L c s as).take n, ok = true) ∧
      ((popResults L c s as).length < n →
        ∃ (bs : List (Action T ι)) (v : State T ι α) (x : T),
          (∀ a ∈ bs, a.byProducer = false) ∧ run (step L c) u bs = some v ∧
            v.popped = u.popped ++ [x])

/-- The next `n` calls of `push` from `s` on return true. -/
def PushesSucceed (L : TriviallyCopyable T ι α) (c : Capacity) (s : State T ι α)
    (n : Nat) : Prop :=
  ∀ (as : List (Action T ι)) (u : State T ι α), run (step L c) s as = some u →
    (∀ ok ∈ (pushResults L c s as).take n, ok = true) ∧
      ((pushResults L c s as).length < n → ∀ x : T,
        ∃ (bs : List (Action T ι)) (v : State T ι α),
          (∀ a ∈ bs, a.byProducer = true) ∧ run (step L c) u bs = some v ∧
            v.pushed = u.pushed ++ [u.prod.item x])

variable {b : Nat → ι → α} {n : Nat}

theorem popsSucceed (h : Reachable (step L c) (init b) s) (hn : n ≤ s.popCredit) :
    PopsSucceed L c s n := by
  intro as u hu
  obtain ⟨hall, hleft⟩ := collect_credit hu hn (ringInv_reachable h)
    (fun _ _ _ hI => hI.step) (fun _ _ _ hI => hI.spends_pop)
  refine ⟨hall, fun hlt => ?_⟩
  obtain ⟨hI, hvis⟩ := visible_reachable (h.trans_run hu)
  exact hI.pop_returns hvis (hleft hlt)

theorem pushesSucceed (h : Reachable (step L c) (init b) s) (hn : n ≤ s.pushCredit c) :
    PushesSucceed L c s n := by
  intro as u hu
  obtain ⟨hall, hleft⟩ := collect_credit hu hn (ringInv_reachable h)
    (fun _ _ _ hI => hI.step) (fun _ _ _ hI => hI.spends_push)
  refine ⟨hall, fun hlt => ?_⟩
  obtain ⟨hI, hvis⟩ := visible_reachable (h.trans_run hu)
  exact hI.push_returns hvis (hleft hlt)

/-- The consumer's query leaves it the credit that `size()` states. -/
theorem popCredit_query {q : Query} {j tl hd : Nat} (hI : RingInv L c s)
    (hl : s.consumerLoads j = some (tl, hd)) (ht : step L c s (.popQuery q j) = some t) :
    t.popCredit = size c tl hd := by
  obtain ⟨v, -, -, -, rfl⟩ := step_popQuery ht
  rw [(hI.consumerSize hl).1]
  rfl

theorem pushCredit_query {q : Query} {j tl hd : Nat} (hI : RingInv L c s)
    (hl : s.producerLoads j = some (tl, hd)) (ht : step L c s (.pushQuery q j) = some t) :
    t.pushCredit c = c.N - 1 - size c tl hd := by
  obtain ⟨v, -, -, -, rfl⟩ := step_pushQuery ht
  obtain ⟨hsize, hle, -⟩ := hI.producerSize hl
  rw [hsize]
  show j + (c.N - 1) - s.pushed.length = c.N - 1 - (s.pushed.length - j)
  omega

/-- **The size queries of either party are safe to act on.** In every
state that any interleaving reaches, whichever admissible value of the
other party's index the query loads: what `size()` returns is at most
`N - 1`; the consumer's next `size()` calls of `pop` and the producer's
next `N - 1 - size()` calls of `push` succeed, under every continuation;
and so does the consumer's next `pop` after `empty()` returned false and
the producer's next `push` after `full()` did. -/
theorem size_queries_safe (L : TriviallyCopyable T ι α) (c : Capacity) (b : Nat → ι → α)
    {s : State T ι α} (h : Reachable (step L c) (init b) s) (j tl hd : Nat) (t : State T ι α) :
    (s.consumerLoads j = some (tl, hd) →
      (step L c s (.popQuery .size j) = some t →
        size c tl hd ≤ c.N - 1 ∧ PopsSucceed L c t (size c tl hd)) ∧
      (step L c s (.popQuery .empty j) = some t → empty hd tl = false →
        PopsSucceed L c t 1)) ∧
    (s.producerLoads j = some (tl, hd) →
      (step L c s (.pushQuery .size j) = some t →
        size c tl hd ≤ c.N - 1 ∧ PushesSucceed L c t (c.N - 1 - size c tl hd)) ∧
      (step L c s (.pushQuery .full j) = some t → full c tl hd = false →
        PushesSucceed L c t 1)) := by
  have hI := ringInv_reachable h
  constructor
  · intro hl
    constructor
    · intro ht
      refine ⟨(hI.consumerSize hl).2.2, popsSucceed (h.trans_step ht) ?_⟩
      exact Nat.le_of_eq (popCredit_query hI hl ht).symm
    · intro ht he
      apply popsSucceed (h.trans_step ht)
      rw [popCredit_query hI hl ht]
      exact size_pos_of_not_empty hI hl he
  · intro hl
    constructor
    · intro ht
      refine ⟨(hI.producerSize hl).2.2, pushesSucceed (h.trans_step ht) ?_⟩
      exact Nat.le_of_eq (pushCredit_query hI hl ht).symm
    · intro ht hf
      apply pushesSucceed (h.trans_step ht)
      rw [pushCredit_query hI hl ht]
      exact size_lt_of_not_full hI hl hf

end Interleaved

/-! One item in a ring of four slots: the consumer may take one, the
producer may push two. -/

def fourSlots : Capacity := ⟨4, by decide, by decide, by decide⟩

theorem onePushed_enabled :
    (run (step twoWords fourSlots) (init fun _ _ => 0) onePushed).isSome := by
  decide

theorem size_queries_safe_onePushed :
    ∃ s, Reachable (step twoWords fourSlots) (init fun _ _ => 0) s ∧
      (∃ t, step twoWords fourSlots s (.popQuery .size 1) = some t ∧
        PopsSucceed twoWords fourSlots t 1) ∧
      (∃ t, step twoWords fourSlots s (.popQuery .empty 1) = some t ∧
        PopsSucceed twoWords fourSlots t 1) ∧
      (∃ t, step twoWords fourSlots s (.pushQuery .size 0) = some t ∧
        PushesSucceed twoWords fourSlots t 2) ∧
      ∃ t, step twoWords fourSlots s (.pushQuery .full 0) = some t ∧
        PushesSucceed twoWords fourSlots t 1 := by
  have hreach : Reachable (step twoWords fourSlots) (init fun _ _ => 0) _ :=
    ⟨onePushed, (Option.some_get onePushed_enabled).symm⟩
  have hsafe := size_queries_safe twoWords fourSlots _ hreach
  refine ⟨_, hreach, ⟨_, rfl, ?_⟩, ⟨_, rfl, ?_⟩, ⟨_, rfl, ?_⟩, ⟨_, rfl, ?_⟩⟩
  · exact (((hsafe 1 1 0 _).1 rfl).1 rfl).2
  · exact ((hsafe 1 1 0 _).1 rfl).2 rfl rfl
  · exact (((hsafe 0 1 0 _).2 rfl).1 rfl).2
  · exact ((hsafe 0 1 0 _).2 rfl).2 rfl rfl

end UltrafastFeed.Spsc
