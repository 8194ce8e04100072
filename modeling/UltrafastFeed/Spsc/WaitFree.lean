import Mathlib.Data.Fintype.Card
import UltrafastFeed.Lib.Progress
import UltrafastFeed.Spsc.Queries

/-!
# Spsc — WaitFree

`push` and `pop` have no loop: one test, one copy, one store. So a call
takes at most two steps more than the item has words, whatever the other
party does in between, and it never finds itself unable to go on: the
other party's index always has a newest value to load, and `buf_` a
version to read that is new enough.
-/

namespace UltrafastFeed.Spsc

open Lib.Run Lib.Progress

variable {T ι α : Type} [Fintype ι]

/-! ## What is left of a call -/

/-- Steps the producer still has to make. -/
def Producer.rank : Producer T ι → Nat
  | .idle => 0
  | .loaded _ _ => Fintype.card ι + 2
  | .copying _ _ todo => todo.card + 1

/-- Steps the consumer still has to make. -/
def Consumer.rank : Consumer ι α → Nat
  | .idle => 0
  | .loaded _ => Fintype.card ι + 2
  | .copying _ item => (Finset.univ.filter fun w => (item w).isNone).card + 1

theorem Producer.rank_le (p : Producer T ι) : p.rank ≤ Fintype.card ι + 2 := by
  cases p with
  | idle => exact Nat.zero_le _
  | loaded x t => exact Nat.le_refl _
  | copying x t todo =>
      have hcard := Finset.card_le_univ todo
      simp only [rank]
      omega

theorem Consumer.rank_le (k : Consumer ι α) : k.rank ≤ Fintype.card ι + 2 := by
  cases k with
  | idle => exact Nat.zero_le _
  | loaded h => exact Nat.le_refl _
  | copying h item =>
      have hcard := Finset.card_le_univ (Finset.univ.filter fun w => (item w).isNone)
      simp only [rank]
      omega

variable [DecidableEq ι]
variable {L : TriviallyCopyable T ι α} {c : Capacity} {s t : State T ι α}

/-! ## The producer -/

theorem pushRank_own {a : Action T ι} (ha : a.byProducer = true) (hbusy : s.prod ≠ .idle)
    (h : step L c s a = some t) : t.prod.rank < s.prod.rank := by
  cases a with
  | push x =>
      obtain ⟨_, hidle, -⟩ := step_push h
      exact absurd hidle hbusy
  | pushCheck j =>
      obtain ⟨x, i, v, hp, -, -, ⟨-, rfl⟩ | ⟨-, rfl⟩⟩ := step_pushCheck h
      · rw [hp]
        simp [Producer.rank]
      · rw [hp]
        simp [Producer.rank]
  | pushWord w =>
      obtain ⟨x, i, todo, b, hp, -, hw, rfl⟩ := step_pushWord h
      rw [hp]
      simp only [Producer.rank, Finset.card_erase_of_mem hw]
      have hpos := Finset.card_pos.mpr ⟨w, hw⟩
      omega
  | pushStore =>
      obtain ⟨x, i, hp, rfl⟩ := step_pushStore h
      rw [hp]
      simp [Producer.rank]
  | pushQuery q j =>
      obtain ⟨_, hidle, -⟩ := step_pushQuery h
      exact absurd hidle hbusy
  | _ => cases ha

/-- A `push` that has begun can go on. -/
theorem push_enabled (hI : RingInv L c s) (hbusy : s.prod ≠ .idle) :
    ∃ a : Action T ι, a.byProducer = true ∧ (step L c s a).isSome := by
  cases hp : s.prod with
  | idle => exact absurd hp hbusy
  | loaded x i =>
      -- the newest `head_` can always be loaded
      have hseen : s.headSeen ≤ s.popped.length := hI.headSeen
      have hlen : s.popped.length < s.head.length := by rw [hI.headLen]; omega
      have hload : s.loadHead s.popped.length = some s.head[s.popped.length] := by
        rw [State.loadHead, if_pos hseen, List.getElem?_eq_getElem hlen]
      refine ⟨.pushCheck s.popped.length, rfl, ?_⟩
      simp only [step, hp, hload]
      split <;> rfl
  | copying x i todo =>
      obtain ⟨v, -, -, hbufs⟩ := hI.lastTail
      have hlast : s.bufs.getLast? = some s.bufs[s.bufs.length - 1] := by
        rw [List.getLast?_eq_getElem?, List.getElem?_eq_getElem]
      rcases todo.eq_empty_or_nonempty with rfl | ⟨w, hw⟩
      · exact ⟨.pushStore, rfl, by simp [step, hp]⟩
      · exact ⟨.pushWord w, rfl, by simp [step, hp, hlast, hw]⟩

theorem push_ranked : Ranked (step L c) (fun _ _ => True) Action.byProducer (RingInv L c)
    (fun s => s.prod ≠ .idle) (fun s => s.prod.rank) where
  keeps _ _ _ hI _ h := hI.step h
  own _ _ _ _ hbusy _ h ha := pushRank_own ha hbusy h
  other _ _ _ _ _ _ h ha := by rw [(consumer_frame ha h).2.2.2.1]
  enabled s hI hbusy := by
    obtain ⟨a, ha, hsome⟩ := push_enabled hI hbusy
    exact ⟨a, ha, trivial, hsome⟩

/-! ## The consumer -/

theorem popRank_own {a : Action T ι} (ha : a.byProducer = false) (hbusy : s.cons ≠ .idle)
    (h : step L c s a = some t) : t.cons.rank < s.cons.rank := by
  cases a with
  | pop =>
      obtain ⟨_, hidle, -⟩ := step_pop h
      exact absurd hidle hbusy
  | popCheck j =>
      obtain ⟨i, v, hk, -, -, ⟨-, rfl⟩ | ⟨-, rfl⟩⟩ := step_popCheck h
      · rw [hk]
        simp [Consumer.rank]
      · rw [hk]
        simp [Consumer.rank]
  | popWord w m =>
      obtain ⟨i, item, b, hk, -, -, hw, rfl⟩ := step_popWord h
      rw [hk]
      simp only [Consumer.rank]
      -- the word just read is no longer missing, the others are as before
      have hsub : (Finset.univ.filter fun k => ((if k = w then some (b i w) else item k)).isNone)
          ⊂ Finset.univ.filter fun k => (item k).isNone := by
        refine Finset.ssubset_iff_subset_ne.mpr ⟨fun k hk' => ?_, fun heq => ?_⟩
        · by_cases hkw : k = w
          · simp [hkw] at hk'
          · simpa [hkw] using hk'
        · have hmem : w ∈ Finset.univ.filter fun k => (item k).isNone := by simp [hw]
          rw [← heq] at hmem
          simp at hmem
      have hlt := Finset.card_lt_card hsub
      omega
  | popStore =>
      obtain ⟨i, item, f, hk, -, rfl⟩ := step_popStore h
      rw [hk]
      simp [Consumer.rank]
  | popQuery q j =>
      obtain ⟨_, hidle, -⟩ := step_popQuery h
      exact absurd hidle hbusy
  | _ => cases ha

/-- A `pop` that has begun can go on. -/
theorem pop_enabled (hI : RingInv L c s) (hvis : s.visible < s.bufs.length)
    (hbusy : s.cons ≠ .idle) :
    ∃ a : Action T ι, a.byProducer = false ∧ (step L c s a).isSome := by
  cases hk : s.cons with
  | idle => exact absurd hk hbusy
  | loaded i =>
      -- the newest `tail_` can always be loaded
      have hseen : s.tailSeen ≤ s.pushed.length := hI.tailSeen
      have hlen : s.pushed.length < s.tail.length := by rw [hI.tailLen]; omega
      have hload : s.loadTail s.pushed.length = some s.tail[s.pushed.length] := by
        rw [State.loadTail, if_pos hseen, List.getElem?_eq_getElem hlen]
      refine ⟨.popCheck s.pushed.length, rfl, ?_⟩
      simp only [step, hk, hload]
      split <;> rfl
  | copying i item =>
      by_cases hall : ∀ w, (item w).isSome
      · have hcomplete : complete? item = some fun w => (item w).get (hall w) := dif_pos hall
        exact ⟨.popStore, rfl, by simp [step, hk, hcomplete]⟩
      · obtain ⟨w, hw⟩ := not_forall.mp hall
        have hnone : item w = none := by simpa using hw
        have hread : s.bufs[s.bufs.length - 1]? = some s.bufs[s.bufs.length - 1] :=
          List.getElem?_eq_getElem _
        have hle : s.visible ≤ s.bufs.length - 1 := by omega
        exact ⟨.popWord w (s.bufs.length - 1), rfl, by simp [step, hk, hread, hle, hnone]⟩

theorem pop_ranked : Ranked (step L c) (fun _ _ => True) (fun a => !a.byProducer)
    (fun s => RingInv L c s ∧ s.visible < s.bufs.length) (fun s => s.cons ≠ .idle)
    (fun s => s.cons.rank) where
  keeps _ _ _ hI _ h := ⟨hI.1.step h, hI.1.step_visible hI.2 h⟩
  own _ _ _ _ hbusy _ h ha := popRank_own (by simpa using ha) hbusy h
  other _ _ _ _ _ _ h ha := by rw [(producer_frame (by simpa using ha) h).2.2.2.1]
  enabled s hI hbusy := by
    obtain ⟨a, ha, hsome⟩ := pop_enabled hI.1 hI.2 hbusy
    exact ⟨a, by simp [ha], trivial, hsome⟩

/-! ## Both calls -/

/-- **`push` and `pop` are wait-free.** In every state that any
interleaving reaches, a `push` that has begun returns within two steps of
the producer more than the item has words, however many steps the
consumer makes in between, and the producer can always make them; and so
does a `pop` with the parties exchanged. -/
theorem calls_wait_free (L : TriviallyCopyable T ι α) (c : Capacity) (b : Nat → ι → α)
    {s : State T ι α} (h : Reachable (step L c) (init b) s) :
    Completes (step L c) (fun _ _ => True) Action.byProducer (fun s => s.prod ≠ .idle)
        (Fintype.card ι + 2) s ∧
      Completes (step L c) (fun _ _ => True) (fun a => !a.byProducer) (fun s => s.cons ≠ .idle)
        (Fintype.card ι + 2) s := by
  have hI := visible_reachable h
  exact ⟨push_ranked.completes hI.1 s.prod.rank_le, pop_ranked.completes hI s.cons.rank_le⟩

/-- Both parties in the middle of a call: one word of the item is still
to be written, and the `pop` has not made its test. -/
theorem calls_wait_free_twoWordRun :
    ∃ s, Reachable (step twoWords twoSlots) (init fun _ _ => 0) s ∧
      s.prod.rank = 2 ∧ s.cons.rank = 4 ∧
      Completes (step twoWords twoSlots) (fun _ _ => True) Action.byProducer
        (fun s => s.prod ≠ .idle) 4 s := by
  have hreach : Reachable (step twoWords twoSlots) (init fun _ _ => 0) _ :=
    ⟨twoWordRun, (Option.some_get twoWordRun_enabled).symm⟩
  refine ⟨_, hreach, ?_, ?_, (calls_wait_free twoWords twoSlots _ hreach).1⟩
  · clear hreach
    decide
  · clear hreach
    decide

end UltrafastFeed.Spsc
