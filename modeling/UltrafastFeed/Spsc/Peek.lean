import UltrafastFeed.Spsc.Queries

/-!
# Spsc — Peek

`peek()` hands out a pointer into `buf_` and reserves nothing. What
protects the slot is the gap of `RingInv`: the consumer has not stored
`head_`, so the slot of the oldest item is not the producer's next one,
however far the producer has run and however stale a `head_` it loads.

A read through the pointer is not atomic either: `Shows` lets every word
come from any version of `buf_` the consumer may read. `Peeked` is what a
successful `peek()` establishes, and every step but the store of `head_`
keeps it.
-/

namespace UltrafastFeed.Spsc

open Lib.Run

variable {T ι α : Type}

/-- `peek()` on the loaded `head_` and `tail_`: the slot pointed to. -/
def peek (h t : Nat) : Option Nat := if h = t then none else some h

/-- Reading slot `i` word by word, each word from a version of `buf_` that
the consumer may read, can yield `x`. -/
def State.Shows (L : TriviallyCopyable T ι α) (s : State T ι α) (i : Nat) (x : T) : Prop :=
  ∃ f : ι → α, x = L.assemble f ∧
    ∀ w, ∃ m b, s.visible ≤ m ∧ s.bufs[m]? = some b ∧ f w = b i w

/-! ## The histories only grow -/

section Grows

variable [Fintype ι] [DecidableEq ι] {L : TriviallyCopyable T ι α} {c : Capacity}
  {s t : State T ι α}

theorem step_grows {a : Action T ι} (h : step L c s a = some t) :
    s.pushed <+: t.pushed ∧ s.tail <+: t.tail := by
  cases ha : a.byProducer with
  | false =>
      obtain ⟨htail, -, -, -, hpushed⟩ := consumer_frame ha h
      rw [htail, hpushed]
      exact ⟨List.prefix_rfl, List.prefix_rfl⟩
  | true =>
      cases a with
      | push x =>
          obtain ⟨_, -, -, rfl⟩ := step_push h
          exact ⟨List.prefix_rfl, List.prefix_rfl⟩
      | pushCheck j =>
          obtain ⟨_, _, _, -, -, -, ⟨-, rfl⟩ | ⟨-, rfl⟩⟩ := step_pushCheck h
          · exact ⟨List.prefix_rfl, List.prefix_rfl⟩
          · exact ⟨List.prefix_rfl, List.prefix_rfl⟩
      | pushWord w =>
          obtain ⟨_, _, _, _, -, -, -, rfl⟩ := step_pushWord h
          exact ⟨List.prefix_rfl, List.prefix_rfl⟩
      | pushStore =>
          obtain ⟨_, _, -, rfl⟩ := step_pushStore h
          exact ⟨List.prefix_append _ _, List.prefix_append _ _⟩
      | pushQuery q j =>
          obtain ⟨_, -, -, -, rfl⟩ := step_pushQuery h
          exact ⟨List.prefix_rfl, List.prefix_rfl⟩
      | _ => cases ha

theorem run_grows {as : List (Action T ι)} (h : run (step L c) s as = some t) :
    s.pushed <+: t.pushed :=
  run_invariant (I := fun u => s.pushed <+: u.pushed)
    (fun _ _ _ hs hu => hs.trans (step_grows hu).1) List.prefix_rfl h

/-- The consumer's view only moves forward, and only the store of `head_`
takes an item. -/
theorem step_view {a : Action T ι} (h : step L c s a = some t) :
    s.visible ≤ t.visible ∧ (a ≠ .popStore → t.popped = s.popped) := by
  cases hp : a.byProducer with
  | true =>
      obtain ⟨-, -, hvisible, -, hpopped⟩ := producer_frame hp h
      exact ⟨Nat.le_of_eq hvisible.symm, fun _ => hpopped⟩
  | false =>
      cases a with
      | pop =>
          obtain ⟨_, -, -, rfl⟩ := step_pop h
          exact ⟨Nat.le_refl _, fun _ => rfl⟩
      | popCheck j =>
          obtain ⟨_, _, -, -, -, ⟨-, rfl⟩ | ⟨-, rfl⟩⟩ := step_popCheck h
          · exact ⟨Nat.le_max_left _ _, fun _ => rfl⟩
          · exact ⟨Nat.le_max_left _ _, fun _ => rfl⟩
      | popWord w m =>
          obtain ⟨_, _, _, -, -, -, -, rfl⟩ := step_popWord h
          exact ⟨Nat.le_refl _, fun _ => rfl⟩
      | popStore =>
          obtain ⟨_, _, _, -, -, rfl⟩ := step_popStore h
          exact ⟨Nat.le_refl _, fun hne => absurd rfl hne⟩
      | popQuery q j =>
          obtain ⟨_, -, -, -, rfl⟩ := step_popQuery h
          exact ⟨Nat.le_max_left _ _, fun _ => rfl⟩
      | _ => cases hp

theorem getElem?_of_prefix {β : Type} {l l' : List β} (h : l <+: l') {k : Nat} {y : β}
    (hy : l[k]? = some y) : l'[k]? = some y := by
  obtain ⟨rest, rfl⟩ := h
  rw [List.getElem?_append_left (List.getElem?_eq_some_iff.mp hy).1, hy]

end Grows

/-! ## What a peek establishes -/

/-- The oldest item is `x`, the consumer has seen its store, and the
store published a version of `buf_` no newer than `n`. -/
structure Peeked (L : TriviallyCopyable T ι α) (c : Capacity) (x : T) (n : Nat)
    (s : State T ι α) : Prop where
  inv : RingInv L c s
  visible : s.visible < s.bufs.length
  since : n ≤ s.visible
  seen : s.popped.length < s.tailSeen
  item : s.pushed[s.popped.length]? = some x
  published : ∃ v, s.tail[s.popped.length + 1]? = some v ∧ v.2 ≤ n

variable {L : TriviallyCopyable T ι α} {c : Capacity} {s t : State T ι α} {x : T} {n : Nat}

/-- The slot holds `x` in every version from the peek's on. -/
theorem Peeked.holds (hP : Peeked L c x n s) {m : Nat} {b : Nat → ι → α} (hm : n ≤ m)
    (hb : s.bufs[m]? = some b) : b (s.popped.length % c.N) = L.words x := by
  obtain ⟨v, hv, hvn⟩ := hP.published
  exact hP.inv.stable _ x v (Nat.le_refl _) hP.item hv m b (hvn.trans hm) hb

/-- However it is read, the slot shows `x`. -/
theorem Peeked.shows_iff (hP : Peeked L c x n s) (y : T) :
    s.Shows L (s.popped.length % c.N) y ↔ y = x := by
  constructor
  · rintro ⟨f, rfl, hread⟩
    have hf : f = L.words x := by
      funext w
      obtain ⟨m, b, hm, hb, hfw⟩ := hread w
      rw [hfw, hP.holds (hP.since.trans hm) hb]
    rw [hf, L.assemble_words]
  · rintro rfl
    refine ⟨L.words y, (L.assemble_words y).symm, fun w => ?_⟩
    have hb := List.getElem?_eq_getElem hP.visible
    exact ⟨_, _, Nat.le_refl _, hb, by rw [hP.holds hP.since hb]⟩

/-- The producer's slot is another one. -/
theorem Peeked.not_written (hP : Peeked L c x n s) {y : T} {k : Nat} {todo : Finset ι}
    (hp : s.prod = .copying y k todo) : k ≠ s.popped.length % c.N := by
  have hprod := hP.inv.prod
  rw [ProducerInv, hp] at hprod
  rw [hprod.1]
  have hlt := (List.getElem?_eq_some_iff.mp hP.item).1
  exact (hP.inv.slot_ne (Nat.le_refl _) hlt).symm

/-- A load of `tail_` that the consumer may still make is not its own
index. -/
theorem Peeked.nonempty (hP : Peeked L c x n s) {j : Nat} {v : Nat × Nat}
    (hj : s.tailSeen ≤ j) (hv : s.tail[j]? = some v) : s.popped.length % c.N ≠ v.1 := by
  intro heq
  have hdrained := hP.inv.drained hj hv rfl heq
  have hseen := hP.seen
  omega

theorem Peeked.peek_again (hP : Peeked L c x n s) {j tl hd : Nat}
    (hl : s.consumerLoads j = some (tl, hd)) : peek hd tl = some (s.popped.length % c.N) := by
  have hne : hd ≠ tl := by
    rw [State.consumerLoads, hP.inv.lastHead] at hl
    split at hl
    · rename_i v h' hv hh
      cases hl
      cases hh
      obtain ⟨hj, hv⟩ := loadTail_some hv
      exact hP.nonempty hj hv
    · cases hl
  obtain ⟨-, -, -, rfl⟩ := hP.inv.consumerLoads hl
  exact if_neg hne

/-- An item popped next is `x`. -/
theorem Peeked.popped_eq (hP : Peeked L c x n s) {y : T} (hpushed : s.pushed <+: t.pushed)
    (hfifo : t.popped <+: t.pushed) (hpopped : t.popped = s.popped ++ [y]) : y = x := by
  have hy : t.pushed[s.popped.length]? = some y := by
    apply getElem?_of_prefix hfifo
    rw [hpopped, List.getElem?_append_right (Nat.le_refl _), Nat.sub_self]
    rfl
  have hx := getElem?_of_prefix hpushed hP.item
  rw [hy] at hx
  exact Option.some.inj hx

section Interleaved

variable [Fintype ι] [DecidableEq ι]

/-- Every step but the store of `head_` keeps what the peek showed. -/
theorem Peeked.step {a : Action T ι} (hP : Peeked L c x n s) (ha : a ≠ .popStore)
    (h : Spsc.step L c s a = some t) : t.popped = s.popped ∧ Peeked L c x n t := by
  obtain ⟨hvisible, hkept⟩ := step_view h
  have hpopped := hkept ha
  obtain ⟨hpushed, htail⟩ := step_grows h
  obtain ⟨v, hv, hvn⟩ := hP.published
  refine ⟨hpopped, hP.inv.step h, hP.inv.step_visible hP.visible h, hP.since.trans hvisible,
    ?_, ?_, v, ?_, hvn⟩
  · rw [hpopped]
    exact Nat.lt_of_lt_of_le hP.seen (hP.inv.step_pop h).1
  · rw [hpopped]
    exact getElem?_of_prefix hpushed hP.item
  · rw [hpopped]
    exact getElem?_of_prefix htail hv

theorem Peeked.run {as : List (Action T ι)} (hP : Peeked L c x n s)
    (has : ∀ a ∈ as, a ≠ .popStore) (h : Lib.Run.run (Spsc.step L c) s as = some t) :
    t.popped = s.popped ∧ Peeked L c x n t := by
  have hstep : ∀ u a v, (u.popped = s.popped ∧ Peeked L c x n u) → a ≠ .popStore →
      Spsc.step L c u a = some v → v.popped = s.popped ∧ Peeked L c x n v := by
    rintro u a v ⟨hu, hPu⟩ ha hv
    obtain ⟨hkept, hPv⟩ := hPu.step ha hv
    exact ⟨hkept.trans hu, hPv⟩
  exact run_invariant_where (I := fun u => u.popped = s.popped ∧ Peeked L c x n u)
    (C := fun _ a => a ≠ .popStore) hstep ⟨rfl, hP⟩ (meets_of_labels has) h

/-- With an item shown, the emptiness test of `pop` passes. -/
theorem Peeked.popCheck (hP : Peeked L c x n s) {j : Nat}
    (h : Spsc.step L c s (.popCheck j) = some t) : t.cons ≠ .idle := by
  obtain ⟨i, v, hp, hj, hv, ⟨heq, rfl⟩ | ⟨-, rfl⟩⟩ := step_popCheck h
  · have hcons := hP.inv.cons
    rw [ConsumerInv, hp] at hcons
    rw [hcons] at heq
    exact absurd heq (hP.nonempty hj hv)
  · simp

theorem Peeked.popStore (hP : Peeked L c x n s) (h : Spsc.step L c s .popStore = some t) :
    t.popped = s.popped ++ [x] := by
  have hfifo := (hP.inv.step h).fifo
  have hpushed := (step_grows h).1
  obtain ⟨i, item, f, -, -, rfl⟩ := step_popStore h
  rw [hP.popped_eq hpushed hfifo rfl]

/-- From wherever it is, the consumer pops `x` by its own steps. -/
theorem Peeked.pops (hP : Peeked L c x n s) :
    ∃ (bs : List (Action T ι)) (u : State T ι α), (∀ a ∈ bs, a.byProducer = false) ∧
      Lib.Run.run (Spsc.step L c) s bs = some u ∧ u.popped = s.popped ++ [x] := by
  obtain ⟨bs, u, y, hbs, hrun, hpopped⟩ :=
    hP.inv.pop_returns hP.visible (Nat.sub_pos_of_lt hP.seen)
  have hfifo : u.popped <+: u.pushed :=
    (run_invariant (I := RingInv L c) (fun _ _ _ hI => hI.step) hP.inv hrun).fifo
  refine ⟨bs, u, hbs, hrun, ?_⟩
  rw [hpopped, hP.popped_eq (run_grows hrun) hfifo hpopped]

/-- A `peek()` that returns a pointer. -/
theorem peeked_of_query {j tl hd i : Nat} {q : Query} (hI : RingInv L c s)
    (hvis : s.visible < s.bufs.length) (hl : s.consumerLoads j = some (tl, hd))
    (hp : peek hd tl = some i) (h : Spsc.step L c s (.popQuery q j) = some t) :
    i = s.popped.length % c.N ∧ t.popped = s.popped ∧ ∃ x, Peeked L c x t.visible t := by
  have hcredit := popCredit_query hI hl h
  have hI' := hI.step h
  have hne : hd ≠ tl := by
    intro heq
    rw [peek, if_pos heq] at hp
    cases hp
  have hsize : 1 ≤ size c tl hd :=
    size_pos_of_not_empty hI hl (by simpa [empty] using hne)
  have hseen : t.popped.length < t.tailSeen := by
    rw [State.popCredit] at hcredit
    omega
  have hlt : t.popped.length < t.pushed.length := Nat.lt_of_lt_of_le hseen hI'.tailSeen
  have htail : t.popped.length + 1 < t.tail.length := by
    rw [hI'.tailLen]
    omega
  have hv := List.getElem?_eq_getElem htail
  refine ⟨?_, (step_view h).2 (by simp), t.pushed[t.popped.length], hI', hI.step_visible hvis h,
    Nat.le_refl _, hseen, List.getElem?_eq_getElem hlt, _, hv, hI'.view _ _ hseen hv⟩
  obtain ⟨-, -, -, rfl⟩ := hI.consumerLoads hl
  rw [peek, if_neg hne] at hp
  exact (Option.some.inj hp).symm

/-- **A peeked slot is stable.** In every state that any interleaving
reaches, if `peek()` returns a pointer, whichever admissible `tail_` it
loads, then there is one item such that after any further steps of either
party short of the consumer's next store of `head_`: the producer is not
writing the slot, every version of `buf_` since the peek holds the item
there, reading through the pointer shows the item and nothing else, a
further `peek()` returns the same slot, no `pop()` finds the ring empty,
the one that stores `head_` returns the item, and the consumer gets that
far by its own steps. -/
theorem peeked_slot_stable (L : TriviallyCopyable T ι α) (c : Capacity) (b : Nat → ι → α)
    {s t : State T ι α} (h : Reachable (step L c) (init b) s) (j tl hd i : Nat)
    (hl : s.consumerLoads j = some (tl, hd)) (hp : peek hd tl = some i)
    (ht : step L c s (.popQuery .peek j) = some t) :
    ∃ x, ∀ (as : List (Action T ι)) (u : State T ι α), (∀ a ∈ as, a ≠ .popStore) →
      run (step L c) t as = some u →
      (∀ y k todo, u.prod = .copying y k todo → k ≠ i) ∧
      (∀ m b, t.visible ≤ m → u.bufs[m]? = some b → b i = L.words x) ∧
      (∀ y, u.Shows L i y ↔ y = x) ∧
      (∀ j' tl' hd', u.consumerLoads j' = some (tl', hd') → peek hd' tl' = some i) ∧
      (∀ j' v, step L c u (.popCheck j') = some v → v.cons ≠ .idle) ∧
      (∀ v, step L c u .popStore = some v → v.popped = u.popped ++ [x]) ∧
      ∃ bs v, (∀ a ∈ bs, a.byProducer = false) ∧ run (step L c) u bs = some v ∧
        v.popped = u.popped ++ [x] := by
  obtain ⟨hI, hvis⟩ := visible_reachable h
  obtain ⟨rfl, hpopped, x, hP⟩ := peeked_of_query hI hvis hl hp ht
  refine ⟨x, fun as u has hu => ?_⟩
  obtain ⟨hsame, hPu⟩ := hP.run has hu
  rw [← hpopped, ← hsame]
  exact ⟨fun _ _ _ => hPu.not_written, fun _ _ => hPu.holds, hPu.shows_iff,
    fun _ _ _ => hPu.peek_again, fun _ _ => hPu.popCheck, fun _ => hPu.popStore, hPu.pops⟩

end Interleaved

/-- With one item in the ring the producer starts to push another. -/
theorem peeked_slot_stable_onePushed :
    ∃ s t u x, Reachable (step twoWords fourSlots) (init fun _ _ => 0) s ∧
      step twoWords fourSlots s (.popQuery .peek 1) = some t ∧
      run (step twoWords fourSlots) t [.push ![5, 6], .pushCheck 0, .pushWord 0] = some u ∧
      u.Shows twoWords 0 x ∧ ∀ y, u.Shows twoWords 0 y → y = x := by
  have hreach : Reachable (step twoWords fourSlots) (init fun _ _ => 0) _ :=
    ⟨onePushed, (Option.some_get onePushed_enabled).symm⟩
  have henabled : (run (step twoWords fourSlots)
      ((run (step twoWords fourSlots) (init fun _ _ => 0) (onePushed ++ [.popQuery .peek 1])).get
        (by decide)) [.push ![5, 6], .pushCheck 0, .pushWord 0]).isSome := by
    decide
  obtain ⟨u, hu⟩ := Option.isSome_iff_exists.mp henabled
  obtain ⟨x, hx⟩ := peeked_slot_stable twoWords fourSlots _ hreach 1 1 0 0 rfl rfl rfl
  have hshows := (hx _ u (by simp) hu).2.2.1
  exact ⟨_, _, u, x, hreach, rfl, hu, (hshows x).mpr rfl, fun y => (hshows y).mp⟩

end UltrafastFeed.Spsc
