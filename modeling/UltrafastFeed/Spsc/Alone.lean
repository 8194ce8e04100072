import UltrafastFeed.Lib.Run
import UltrafastFeed.Spsc.Invariant

/-!
# Spsc — Alone

The other direction of `Steps`: a party that is left alone gets through
its call. No step of either party waits for the other, so from any state
between two calls of its own a party completes the next one by its own
steps; the copy loops are the only part that takes an induction.
-/

namespace UltrafastFeed.Spsc

open Lib.Run

variable {T ι α : Type} [Fintype ι]

theorem complete?_all (f : ι → α) : complete? (fun w => some (f w)) = some f := by
  simp [complete?]

variable [DecidableEq ι] {L : TriviallyCopyable T ι α} {c : Capacity}

/-! ## The copy loops -/

/-- The producer's copy, word by word. -/
theorem run_pushWords {x : T} {i : Nat} (todo : Finset ι) {s : State T ι α}
    {b : Nat → ι → α} (hp : s.prod = .copying x i todo) (hb : s.bufs.getLast? = some b) :
    ∃ (ws : List ι) (bufs : List (Nat → ι → α)) (b' : Nat → ι → α),
      run (step L c) s (ws.map .pushWord)
        = some { s with bufs := bufs, prod := .copying x i ∅ } ∧
      bufs.getLast? = some b' ∧ s.bufs.length ≤ bufs.length ∧ (∀ j, j ≠ i → b' j = b j) ∧
      ∀ w, b' i w = if w ∈ todo then L.words x w else b i w := by
  induction todo using Finset.induction generalizing s b with
  | empty =>
      refine ⟨[], s.bufs, b, ?_, hb, Nat.le_refl _, fun _ _ => rfl, fun w => rfl⟩
      rw [← hp]
      rfl
  | insert w todo hw ih =>
      have hstep : step L c s (.pushWord w) = some { s with
          bufs := s.bufs ++ [writeWord b i w (L.words x w)]
          prod := .copying x i todo } := by
        simp only [step, hp, hb, Finset.mem_insert_self, if_true, Finset.erase_insert hw]
      obtain ⟨ws, bufs, b', hrun, hlast, hlen, hother, hdone⟩ :=
        ih (s := { s with
          bufs := s.bufs ++ [writeWord b i w (L.words x w)]
          prod := .copying x i todo }) rfl (List.getLast?_concat ..)
      refine ⟨w :: ws, bufs, b', run_cons.mpr ⟨_, hstep, hrun⟩, hlast, ?_, ?_, ?_⟩
      · simp only [List.length_append] at hlen
        omega
      · intro j hj
        rw [hother j hj, writeWord_other hj]
      · intro k
        rw [hdone k]
        by_cases hk : k = w
        · subst hk
          simp [hw, writeWord]
        · simp [hk, writeWord]

/-- The consumer's copy, word by word from the newest version; the words
already read stay as they were read. -/
theorem run_popWords {i : Nat} {b : Nat → ι → α} (todo : Finset ι) {s : State T ι α}
    {item : ι → Option α} (hp : s.cons = .copying i item)
    (htodo : ∀ w, item w = none ↔ w ∈ todo)
    (hb : s.bufs.getLast? = some b) (hv : s.visible < s.bufs.length) :
    ∃ ws : List ι, run (step L c) s (ws.map (.popWord · (s.bufs.length - 1)))
      = some { s with cons := .copying i fun w => some ((item w).getD (b i w)) } := by
  induction todo using Finset.induction generalizing s item with
  | empty =>
      have hitem : item = fun w => some ((item w).getD (b i w)) := by
        funext w
        cases hw : item w with
        | none => exact absurd ((htodo w).mp hw) (Finset.notMem_empty w)
        | some a => rfl
      rw [← hitem, ← hp]
      exact ⟨[], rfl⟩
  | insert w todo hw ih =>
      have hlast : s.bufs[s.bufs.length - 1]? = some b := getLast?_bufs hb
      have hunread : item w = none := (htodo w).mpr (Finset.mem_insert_self w todo)
      have hstep : step L c s (.popWord w (s.bufs.length - 1)) = some { s with
          cons := .copying i fun k => if k = w then some (b i w) else item k } := by
        simp only [step, hp, hlast]
        rw [if_pos ⟨by omega, hunread⟩]
      have hrest : ∀ k, (if k = w then some (b i w) else item k) = none ↔ k ∈ todo := by
        intro k
        by_cases hk : k = w
        · subst hk
          simp [hw]
        · simp [hk, htodo k]
      obtain ⟨ws, hrun⟩ := ih (s := { s with
          cons := .copying i fun k => if k = w then some (b i w) else item k }) rfl hrest hb hv
      have hread : (fun k => some ((if k = w then some (b i w) else item k).getD (b i k)))
          = fun k => some ((item k).getD (b i k)) := by
        funext k
        by_cases hk : k = w
        · subst hk
          simp [hunread]
        · simp [hk]
      rw [hread] at hrun
      exact ⟨w :: ws, run_cons.mpr ⟨_, hstep, hrun⟩⟩

/-! ## Whole calls, from wherever the party is in them -/

variable {s : State T ι α} {x : T} {v : Nat × Nat} {h i j : Nat} {b : Nat → ι → α}

/-- The producer's steps once its fullness test has passed, and the
consumer's once its emptiness test has. -/
def pushCopySteps (ws : List ι) : List (Action T ι) :=
  ws.map .pushWord ++ [.pushStore]

def popCopySteps (m : Nat) (ws : List ι) : List (Action T ι) :=
  ws.map (.popWord · m) ++ [.popStore]

/-- The steps of a `push` that finds room, and of a `pop` that finds an
item. -/
def pushSteps (x : T) (j : Nat) (ws : List ι) : List (Action T ι) :=
  .push x :: .pushCheck j :: pushCopySteps ws

def popSteps (j m : Nat) (ws : List ι) : List (Action T ι) :=
  .pop :: .popCheck j :: popCopySteps m ws

theorem run_pushRefused (x : T) (hp : s.prod = .idle) (hv : s.tail.getLast? = some v)
    (hh : s.loadHead j = some h) (hfull : c.next v.1 = h) :
    run (step L c) s [.push x, .pushCheck j] = some { s with headSeen := j, prod := .idle } := by
  have hload : State.loadHead { s with prod := .loaded x v.1 } j = some h := hh
  refine run_cons.mpr ⟨{ s with prod := .loaded x v.1 }, ?_, run_cons.mpr ⟨_, ?_, run_nil _⟩⟩
  · simp only [step, hp, hv]
  · simp only [step, hload, if_pos hfull]

/-- What a `push` of `x` to slot `i` leaves behind: the item in its slot,
the other slots as they were, and the advanced tail. -/
def Pushed (L : TriviallyCopyable T ι α) (c : Capacity) (x : T) (i : Nat)
    (b : Nat → ι → α) (s u : State T ι α) : Prop :=
  ∃ (bufs : List (Nat → ι → α)) (b' : Nat → ι → α),
    u = { s with
      bufs := bufs, tail := s.tail ++ [(c.next i, bufs.length - 1)], prod := .idle
      pushed := s.pushed ++ [x] } ∧
    bufs.getLast? = some b' ∧ s.bufs.length ≤ bufs.length ∧
    (∀ k, k ≠ i → b' k = b k) ∧ b' i = L.words x

theorem run_pushCopying {todo : Finset ι} (hp : s.prod = .copying x i todo)
    (hb : s.bufs.getLast? = some b) (hdone : ∀ w, w ∉ todo → b i w = L.words x w) :
    ∃ (ws : List ι) (u : State T ι α),
      run (step L c) s (pushCopySteps ws) = some u ∧ Pushed L c x i b s u := by
  obtain ⟨ws, bufs, b', hrun, hlast, hlen, hother, hslot⟩ :=
    run_pushWords (L := L) (c := c) todo hp hb
  refine ⟨ws, _, run_append.mpr ⟨_, hrun, rfl⟩, bufs, b', rfl, hlast, hlen, hother, ?_⟩
  funext w
  rw [hslot w]
  split
  · rfl
  · rename_i hw
    exact hdone w hw

theorem run_pushLoaded (hp : s.prod = .loaded x i) (hh : s.loadHead j = some h)
    (hroom : c.next i ≠ h) (hb : s.bufs.getLast? = some b) :
    ∃ (ws : List ι) (u : State T ι α),
      run (step L c) s (.pushCheck j :: pushCopySteps ws) = some u ∧
      Pushed L c x i b { s with headSeen := j } u := by
  obtain ⟨ws, u, hrun, hu⟩ := run_pushCopying (L := L) (c := c)
    (s := { s with headSeen := j, prod := .copying x i Finset.univ }) rfl hb
    (fun w hw => absurd (Finset.mem_univ w) hw)
  refine ⟨ws, u, run_cons.mpr ⟨_, ?_, hrun⟩, hu⟩
  simp only [step, hp, hh, if_neg hroom]

/-- **A `push` that sees room completes**, and only its slot changes. -/
theorem run_push (x : T) (hp : s.prod = .idle) (hv : s.tail.getLast? = some v)
    (hh : s.loadHead j = some h) (hroom : c.next v.1 ≠ h) (hb : s.bufs.getLast? = some b) :
    ∃ (ws : List ι) (u : State T ι α),
      run (step L c) s (pushSteps x j ws) = some u ∧
      Pushed L c x v.1 b { s with headSeen := j } u := by
  obtain ⟨ws, u, hrun, hu⟩ := run_pushLoaded (L := L) (c := c)
    (s := { s with prod := .loaded x v.1 }) rfl hh hroom hb
  refine ⟨ws, u, run_cons.mpr ⟨_, ?_, hrun⟩, hu⟩
  simp only [step, hp, hv]

theorem run_popEmpty (hp : s.cons = .idle) (hh : s.head.getLast? = some h)
    (hv : s.loadTail j = some v) (hempty : h = v.1) :
    run (step L c) s [.pop, .popCheck j] = some { s.acquire j v with cons := .idle } := by
  have hload : State.loadTail { s with cons := .loaded h } j = some v := hv
  refine run_cons.mpr ⟨{ s with cons := .loaded h }, ?_, run_cons.mpr ⟨_, ?_, run_nil _⟩⟩
  · simp only [step, hp, hh]
  · simp only [step, hload, if_pos hempty]
    rfl

theorem run_popCopying {item : ι → Option α} (hp : s.cons = .copying i item)
    (hb : s.bufs.getLast? = some b) (hvis : s.visible < s.bufs.length) :
    ∃ ws : List ι, run (step L c) s (popCopySteps (s.bufs.length - 1) ws) = some { s with
      head := s.head ++ [c.next i], cons := .idle
      popped := s.popped ++ [L.assemble fun w => (item w).getD (b i w)] } := by
  obtain ⟨ws, hrun⟩ := run_popWords (L := L) (c := c) (Finset.univ.filter (item · = none))
    hp (fun w => by simp) hb hvis
  refine ⟨ws, run_append.mpr ⟨_, hrun, run_cons.mpr ⟨_, ?_, run_nil _⟩⟩⟩
  simp only [step, complete?_all]

theorem run_popLoaded (hp : s.cons = .loaded h) (hv : s.loadTail j = some v)
    (hitem : h ≠ v.1) (hb : s.bufs.getLast? = some b) (hvis : s.visible < s.bufs.length)
    (hver : v.2 < s.bufs.length) :
    ∃ ws : List ι, run (step L c) s (.popCheck j :: popCopySteps (s.bufs.length - 1) ws)
      = some { s.acquire j v with
        head := s.head ++ [c.next h], cons := .idle
        popped := s.popped ++ [L.assemble (b h)] } := by
  obtain ⟨ws, hrun⟩ := run_popCopying (L := L) (c := c)
    (s := { s.acquire j v with cons := .copying h fun _ => none }) rfl hb
    (Nat.max_lt.mpr ⟨hvis, hver⟩)
  refine ⟨ws, run_cons.mpr ⟨_, ?_, hrun⟩⟩
  simp only [step, hp, hv, if_neg hitem]

/-- **A `pop` that sees an item completes**, with what the newest version
of the slot holds. -/
theorem run_pop (hp : s.cons = .idle) (hh : s.head.getLast? = some h)
    (hv : s.loadTail j = some v) (hitem : h ≠ v.1) (hb : s.bufs.getLast? = some b)
    (hvis : s.visible < s.bufs.length) (hver : v.2 < s.bufs.length) :
    ∃ ws : List ι,
      run (step L c) s (popSteps j (s.bufs.length - 1) ws) = some { s.acquire j v with
        head := s.head ++ [c.next h], cons := .idle
        popped := s.popped ++ [L.assemble (b h)] } := by
  obtain ⟨ws, hrun⟩ := run_popLoaded (L := L) (c := c)
    (s := { s with cons := .loaded h }) rfl hv hitem hb hvis hver
  refine ⟨ws, run_cons.mpr ⟨_, ?_, hrun⟩⟩
  simp only [step, hp, hh]

end UltrafastFeed.Spsc
