import Mathlib.Data.List.Infix
import UltrafastFeed.Lib.Run
import UltrafastFeed.Spsc.Steps

/-!
# Spsc — Invariant

The stored indices are ambiguous (equal indices mean full or empty), so
the invariant speaks about the UNBOUNDED counters behind them: the
number of items pushed and the number popped. Write `p` for the first,
`q` for the second, `v` for the position in `head_`'s history that the
producer has observed and `u` for the position in `tail_`'s history that
the consumer has observed. Then

    v ≤ q ≤ u ≤ p ≤ v + (N - 1)

holds at every step, whatever each side has loaded. Its two ends are
what the two tests maintain: the producer never runs a full ring ahead
of the OLDEST head it may still believe in, the consumer never passes
the newest tail it has seen.
-/

namespace UltrafastFeed.Spsc

open Lib.Run

variable {T ι α : Type}

/-- What holds inside a `push`. While copying, the item's slot is the
next one, there is room for it in the producer's view, and the words
already written are in the newest version of `buf_`. -/
def ProducerInv (L : TriviallyCopyable T ι α) (c : Capacity)
    (s : State T ι α) : Prop :=
  match s.prod with
  | .idle => True
  | .loaded _ t => t = s.pushed.length % c.N
  | .copying x t todo =>
      t = s.pushed.length % c.N ∧ s.pushed.length < s.headSeen + (c.N - 1) ∧
        ∀ b w, s.bufs.getLast? = some b → w ∉ todo → b t w = L.words x w

/-- What holds inside a `pop`. While copying, the oldest item is one the
consumer has seen the store of, and the words already read are its. -/
def ConsumerInv (L : TriviallyCopyable T ι α) (c : Capacity)
    (s : State T ι α) : Prop :=
  match s.cons with
  | .idle => True
  | .loaded h => h = s.popped.length % c.N
  | .copying h item =>
      h = s.popped.length % c.N ∧ s.popped.length < s.tailSeen ∧
        ∀ x w a, s.pushed[s.popped.length]? = some x → item w = some a →
          a = L.words x w

/-- The ring invariant. -/
structure RingInv (L : TriviallyCopyable T ι α) (c : Capacity)
    (s : State T ι α) : Prop where
  tailLen : s.tail.length = s.pushed.length + 1
  tailVal : ∀ (i : Nat) (v : Nat × Nat), s.tail[i]? = some v → v.1 = i % c.N
  tailVer : ∀ (i : Nat) (v : Nat × Nat), s.tail[i]? = some v → v.2 < s.bufs.length
  tailMono : ∀ (i j : Nat) (v w : Nat × Nat), i ≤ j →
    s.tail[i]? = some v → s.tail[j]? = some w →
    v.2 ≤ w.2
  headLen : s.head.length = s.popped.length + 1
  headVal : ∀ i h, s.head[i]? = some h → h = i % c.N
  headSeen : s.headSeen ≤ s.popped.length
  popped_le : s.popped.length ≤ s.tailSeen
  tailSeen : s.tailSeen ≤ s.pushed.length
  gap : s.pushed.length ≤ s.headSeen + (c.N - 1)
  view : ∀ (i : Nat) (v : Nat × Nat), i ≤ s.tailSeen → s.tail[i]? = some v → v.2 ≤ s.visible
  /-- An item not yet popped sits in its slot in EVERY version of `buf_`
  from the one its store published on. -/
  stable : ∀ (i : Nat) (x : T) (v : Nat × Nat), s.popped.length ≤ i → s.pushed[i]? = some x →
    s.tail[i + 1]? = some v → ∀ m b, v.2 ≤ m → s.bufs[m]? = some b →
      b (i % c.N) = L.words x
  fifo : s.popped <+: s.pushed
  prod : ProducerInv L c s
  cons : ConsumerInv L c s

variable {L : TriviallyCopyable T ι α} {c : Capacity} {s t : State T ι α}

/-- A position of a history that grew by one value is an old position or
the one just stored. -/
theorem getElem?_stored {β : Type} {l : List β} {x y : β} {k : Nat}
    (h : (l ++ [x])[k]? = some y) : l[k]? = some y ∨ (k = l.length ∧ y = x) := by
  rcases Nat.lt_or_ge k l.length with hlt | hge
  · rw [List.getElem?_append_left hlt] at h
    exact .inl h
  · rw [List.getElem?_append_right hge] at h
    obtain ⟨hz, rfl⟩ := List.getElem?_eq_some_iff.mp h
    have hk : k - l.length < 1 := hz
    exact .inr ⟨by omega, List.getElem_singleton _⟩

/-- A history of one value. -/
theorem getElem?_first {β : Type} {x y : β} {k : Nat} (h : [x][k]? = some y) :
    k = 0 ∧ y = x :=
  (getElem?_stored (l := []) h).resolve_left nofun

theorem inv_init (b : Nat → ι → α) : RingInv L c (init b) where
  tailLen := rfl
  tailVal := by
    intro i v h
    obtain ⟨rfl, rfl⟩ := getElem?_first h
    exact (Nat.zero_mod _).symm
  tailVer := by
    intro i v h
    obtain ⟨rfl, rfl⟩ := getElem?_first h
    exact Nat.zero_lt_one
  tailMono := by
    intro i j v w _ hv hw
    obtain ⟨rfl, rfl⟩ := getElem?_first hv
    obtain ⟨rfl, rfl⟩ := getElem?_first hw
    exact Nat.le_refl _
  headLen := rfl
  headVal := by
    intro i h hh
    obtain ⟨rfl, rfl⟩ := getElem?_first hh
    exact (Nat.zero_mod _).symm
  headSeen := Nat.le_refl _
  popped_le := Nat.le_refl _
  tailSeen := Nat.le_refl _
  gap := Nat.zero_le _
  view := by
    intro i v _ hv
    obtain ⟨rfl, rfl⟩ := getElem?_first hv
    exact Nat.le_refl _
  stable := by
    intro i x v _ hx
    cases hx
  fifo := List.prefix_rfl
  prod := trivial
  cons := trivial

/-! ## What the two tests conclude -/

/-- A loaded `head_` value that differs from the next tail leaves room
in the producer's new view. -/
theorem RingInv.room (hI : RingInv L c s) {j h i : Nat} (hj : s.headSeen ≤ j)
    (hh : s.head[j]? = some h) (hi : i = s.pushed.length % c.N)
    (hne : c.next i ≠ h) :
    j ≤ s.popped.length ∧ s.pushed.length < j + (c.N - 1) := by
  have hlen := (List.getElem?_eq_some_iff.mp hh).1
  have hq : j ≤ s.popped.length := by have := hI.headLen; omega
  refine ⟨hq, ?_⟩
  have hgap := hI.gap
  by_contra hfull
  -- the counters are then exactly `N` apart, so the test would refuse
  have hpeq : s.pushed.length + 1 = j + c.N := by have := c.two_le; omega
  apply hne
  rw [hi, c.next_mod, hpeq, hI.headVal j h hh, Nat.add_mod_right]

/-- A loaded `head_` value equal to the next tail: the producer sees
`N - 1` items that the consumer has not released. -/
theorem RingInv.full (hI : RingInv L c s) {j h i : Nat} (hj : s.headSeen ≤ j)
    (hh : s.head[j]? = some h) (hi : i = s.pushed.length % c.N)
    (heq : c.next i = h) :
    j ≤ s.popped.length ∧ s.pushed.length = j + (c.N - 1) := by
  have hlen := (List.getElem?_eq_some_iff.mp hh).1
  have hq : j ≤ s.popped.length := by have := hI.headLen; omega
  refine ⟨hq, ?_⟩
  have hgap := hI.gap
  have hple := hI.popped_le
  have hule := hI.tailSeen
  have hpos := c.two_le
  rw [hi, c.next_mod, hI.headVal j h hh] at heq
  by_contra hne
  have hcc := eq_of_mod_eq (n := c.N) (i := j) (j := s.pushed.length + 1)
    (by omega) (by omega) heq.symm
  omega

/-- A loaded `tail_` value that differs from the head shows an item. -/
theorem RingInv.available (hI : RingInv L c s) {j i : Nat} {v : Nat × Nat}
    (hj : s.tailSeen ≤ j) (hv : s.tail[j]? = some v)
    (hi : i = s.popped.length % c.N) (hne : i ≠ v.1) :
    s.popped.length < j := by
  have hple := hI.popped_le
  rcases Nat.eq_or_lt_of_le (Nat.le_trans hple hj) with heq | hlt
  · exact absurd (by rw [hi, hI.tailVal j v hv, heq]) hne
  · exact hlt

/-- A loaded `tail_` value equal to the head: the consumer has taken all
it sees. -/
theorem RingInv.drained (hI : RingInv L c s) {j i : Nat} {v : Nat × Nat}
    (hj : s.tailSeen ≤ j) (hv : s.tail[j]? = some v)
    (hi : i = s.popped.length % c.N) (heq : i = v.1) :
    j = s.popped.length := by
  have hlen := (List.getElem?_eq_some_iff.mp hv).1
  have htl := hI.tailLen
  have hgap := hI.gap
  have hseen := hI.headSeen
  have hple := hI.popped_le
  have hpos := c.two_le
  rw [hi, hI.tailVal j v hv] at heq
  exact (eq_of_mod_eq (n := c.N) (by omega) (by omega) heq).symm

/-! ## The steps that only move one party -/

/-- A half-done `pop` survives a newer view of `tail_` and new items
behind the oldest one. -/
theorem ConsumerInv.mono (h : ConsumerInv L c s) (hcons : t.cons = s.cons)
    (hpopped : t.popped = s.popped) (hseen : s.tailSeen ≤ t.tailSeen)
    (hpushed : ∀ x, s.popped.length < s.tailSeen →
      t.pushed[s.popped.length]? = some x → s.pushed[s.popped.length]? = some x) :
    ConsumerInv L c t := by
  rw [ConsumerInv] at h ⊢
  rw [hcons, hpopped]
  split at h
  · trivial
  · exact h
  · obtain ⟨hslot, hlt, hgot⟩ := h
    exact ⟨hslot, Nat.lt_of_lt_of_le hlt hseen,
      fun x w a hx => hgot x w a (hpushed x hlt hx)⟩

/-- Loading `tail_` moves the consumer's view forward. -/
theorem RingInv.acquire (hI : RingInv L c s) {j : Nat} {v : Nat × Nat}
    (hj : s.tailSeen ≤ j) (hv : s.tail[j]? = some v) :
    RingInv L c (s.acquire j v) := by
  have hlen := (List.getElem?_eq_some_iff.mp hv).1
  have htl := hI.tailLen
  have hple := hI.popped_le
  refine { hI with popped_le := ?_, tailSeen := ?_, view := ?_, cons := ?_ }
  · exact Nat.le_trans hple hj
  · show j ≤ s.pushed.length
    omega
  · intro i w hi hw
    exact Nat.le_trans (hI.tailMono i j w v hi hw hv) (Nat.le_max_right _ _)
  · exact hI.cons.mono rfl rfl hj fun x _ hx => hx

/-- Moving the consumer keeps everything but its own clause. -/
theorem RingInv.withCons (hI : RingInv L c s) (k : Consumer ι α)
    (hk : ConsumerInv L c { s with cons := k }) :
    RingInv L c { s with cons := k } :=
  { hI with cons := hk }

/-- Moving the producer keeps everything but its own clause. -/
theorem RingInv.withProd (hI : RingInv L c s) (k : Producer T ι)
    (hk : ProducerInv L c { s with prod := k }) :
    RingInv L c { s with prod := k } :=
  { hI with prod := hk }

/-- The producer's view of `head_` may move forward on its own. -/
theorem RingInv.observeHead (hI : RingInv L c s) {j : Nat} (hj : s.headSeen ≤ j)
    (hq : j ≤ s.popped.length) (hk : ProducerInv L c { s with headSeen := j }) :
    RingInv L c { s with headSeen := j } :=
  { hI with
    headSeen := hq
    gap := Nat.le_trans hI.gap (Nat.add_le_add_right hj _)
    prod := hk }

/-! ## The steps that write `buf_` or store an index -/

theorem RingInv.bufs_pos (hI : RingInv L c s) : 0 < s.bufs.length := by
  have hlen : 0 < s.tail.length := by rw [hI.tailLen]; omega
  have := hI.tailVer 0 _ (List.getElem?_eq_getElem hlen)
  omega

theorem getLast?_bufs {b : Nat → ι → α} (h : s.bufs.getLast? = some b) :
    s.bufs[s.bufs.length - 1]? = some b := by
  rwa [List.getLast?_eq_getElem?] at h

/-- The slot being written is none of the slots in use. -/
theorem RingInv.slot_ne (hI : RingInv L c s) {i : Nat} (hi : s.popped.length ≤ i)
    (hlt : i < s.pushed.length) : i % c.N ≠ s.pushed.length % c.N := by
  intro heq
  have hgap := hI.gap
  have hseen := hI.headSeen
  have hpos := c.two_le
  have := eq_of_mod_eq (n := c.N) (Nat.le_of_lt hlt) (by omega) heq
  omega

theorem writeWord_other [DecidableEq ι] {b : Nat → ι → α} {t i : Nat} {w : ι}
    {a : α} (h : i ≠ t) : writeWord b t w a i = b i := by
  funext k
  simp [writeWord, h]

theorem RingInv.pushWord [DecidableEq ι] (hI : RingInv L c s) {x : T} {i : Nat}
    {todo : Finset ι} {b : Nat → ι → α} {w : ι}
    (hp : s.prod = .copying x i todo) (hb : s.bufs.getLast? = some b) :
    RingInv L c { s with
      bufs := s.bufs ++ [writeWord b i w (L.words x w)]
      prod := .copying x i (todo.erase w) } := by
  have hprod := hI.prod
  rw [ProducerInv, hp] at hprod
  obtain ⟨hi, hroom, hdone⟩ := hprod
  refine { hI with tailVer := ?_, stable := ?_, prod := ?_ }
  · intro k v hv
    have := hI.tailVer k v hv
    rw [List.length_append]
    omega
  · intro k y v hk hy hv m b' hm hb'
    have hklt : k < s.pushed.length := (List.getElem?_eq_some_iff.mp hy).1
    rcases getElem?_stored hb' with hb' | ⟨-, rfl⟩
    · exact hI.stable k y v hk hy hv m b' hm hb'
    · -- the version just written differs from the last one in slot `i` only
      have hlast := hI.tailVer _ _ hv
      rw [writeWord_other (hi ▸ hI.slot_ne hk hklt)]
      exact hI.stable k y v hk hy hv _ b (by omega) (getLast?_bufs hb)
  · refine ⟨hi, hroom, ?_⟩
    intro b' w' hb' hw'
    rw [List.getLast?_append, List.getLast?_singleton, Option.some_or] at hb'
    cases hb'
    rw [Finset.mem_erase, not_and_or, not_not] at hw'
    by_cases hww : w' = w
    · subst hww
      simp [writeWord]
    · simp only [writeWord, hww, and_false, if_false]
      exact hdone b w' hb (hw'.resolve_left hww)

/-- After the last word the newest version holds the item. -/
theorem RingInv.copied (hI : RingInv L c s) {x : T} {i m : Nat} {b : Nat → ι → α}
    (hp : s.prod = .copying x i ∅) (hm : s.bufs.length - 1 ≤ m)
    (hb : s.bufs[m]? = some b) : b (s.pushed.length % c.N) = L.words x := by
  have hprod := hI.prod
  rw [ProducerInv, hp] at hprod
  obtain ⟨hi, -, hdone⟩ := hprod
  have hlt := (List.getElem?_eq_some_iff.mp hb).1
  have hlast : m = s.bufs.length - 1 := by omega
  funext w
  rw [← hi]
  refine hdone b w ?_ (Finset.notMem_empty w)
  rw [List.getLast?_eq_getElem?, ← hlast]
  exact hb

/-- The store publishes the newest version, so the history of `tail_`
stays ordered by version. -/
theorem RingInv.stored_mono (hI : RingInv L c s) {i j n : Nat} {v w : Nat × Nat}
    (hij : i ≤ j) (hv : (s.tail ++ [(n, s.bufs.length - 1)])[i]? = some v)
    (hw : (s.tail ++ [(n, s.bufs.length - 1)])[j]? = some w) : v.2 ≤ w.2 := by
  rcases getElem?_stored hv with hv | ⟨rfl, rfl⟩
  · rcases getElem?_stored hw with hw | ⟨-, rfl⟩
    · exact hI.tailMono i j v w hij hv hw
    · exact Nat.le_sub_one_of_lt (hI.tailVer i v hv)
  · rcases getElem?_stored hw with hw | ⟨-, rfl⟩
    · have hlt := (List.getElem?_eq_some_iff.mp hw).1
      omega
    · exact Nat.le_refl _

theorem RingInv.pushStore (hI : RingInv L c s) {x : T} {i : Nat}
    (hp : s.prod = .copying x i ∅) :
    RingInv L c { s with
      tail := s.tail ++ [(c.next i, s.bufs.length - 1)]
      prod := .idle
      pushed := s.pushed ++ [x] } := by
  have hprod := hI.prod
  rw [ProducerInv, hp] at hprod
  obtain ⟨hi, hroom, -⟩ := hprod
  have htl := hI.tailLen
  have hule := hI.tailSeen
  refine { hI with
    tailLen := ?_, tailVal := ?_, tailVer := ?_, tailMono := ?_, tailSeen := ?_,
    gap := ?_, view := ?_, stable := ?_, fifo := ?_, prod := trivial, cons := ?_ }
  · simp only [List.length_append, List.length_singleton]
    omega
  · intro k v hv
    rcases getElem?_stored hv with hv | ⟨rfl, rfl⟩
    · exact hI.tailVal k v hv
    · rw [hi, c.next_mod, htl]
  · intro k v hv
    rcases getElem?_stored hv with hv | ⟨-, rfl⟩
    · exact hI.tailVer k v hv
    · exact Nat.sub_lt hI.bufs_pos Nat.zero_lt_one
  · intro k l v w hkl hv hw
    exact hI.stored_mono hkl hv hw
  · simp only [List.length_append]
    omega
  · simp only [List.length_append, List.length_singleton]
    omega
  · intro k v hk hv
    rcases getElem?_stored hv with hv | ⟨rfl, -⟩
    · exact hI.view k v hk hv
    · have hk' : s.tail.length ≤ s.tailSeen := hk
      omega
  · -- an item is an old one, published by an old store, or the one just pushed
    intro k y v hk hy hv m b hm hb
    rcases getElem?_stored hy with hy | ⟨rfl, rfl⟩
    · have hlt := (List.getElem?_eq_some_iff.mp hy).1
      rcases getElem?_stored hv with hv | ⟨heq, -⟩
      · exact hI.stable k y v hk hy hv m b hm hb
      · omega
    · rcases getElem?_stored hv with hv | ⟨-, rfl⟩
      · have hlt := (List.getElem?_eq_some_iff.mp hv).1
        omega
      · exact hI.copied hp hm hb
  · exact hI.fifo.trans (List.prefix_append _ _)
  · refine hI.cons.mono rfl rfl (Nat.le_refl _) ?_
    intro y hlt hy
    rwa [List.getElem?_append_left (Nat.lt_of_lt_of_le hlt hule)] at hy

/-- A version the consumer may read holds the oldest item's words. -/
theorem RingInv.readable (hI : RingInv L c s) (hlt : s.popped.length < s.tailSeen)
    {x : T} (hx : s.pushed[s.popped.length]? = some x) {m : Nat}
    {b : Nat → ι → α} (hm : s.visible ≤ m) (hb : s.bufs[m]? = some b) :
    b (s.popped.length % c.N) = L.words x := by
  have hule := hI.tailSeen
  have hlen : s.popped.length + 1 < s.tail.length := by rw [hI.tailLen]; omega
  have hv := List.getElem?_eq_getElem hlen
  have hvis := hI.view _ _ (by omega) hv
  exact hI.stable _ x _ (Nat.le_refl _) hx hv m b (Nat.le_trans hvis hm) hb

theorem RingInv.popWord [DecidableEq ι] (hI : RingInv L c s) {i : Nat}
    {item : ι → Option α} {b : Nat → ι → α} {w : ι} {m : Nat}
    (hp : s.cons = .copying i item) (hb : s.bufs[m]? = some b)
    (hm : s.visible ≤ m) :
    RingInv L c { s with
      cons := .copying i fun k => if k = w then some (b i w) else item k } := by
  have hc := hI.cons
  rw [ConsumerInv, hp] at hc
  obtain ⟨hi, hlt, hgot⟩ := hc
  refine hI.withCons _ ⟨hi, hlt, ?_⟩
  intro x w' a hx ha
  change (if w' = w then some (b i w) else item w') = some a at ha
  by_cases hww : w' = w
  · subst hww
    rw [if_pos rfl] at ha
    cases ha
    rw [hi, hI.readable hlt hx hm hb]
  · rw [if_neg hww] at ha
    exact hgot x w' a hx ha

/-- The item a finished copy assembles is the oldest one. -/
theorem RingInv.assembled (hI : RingInv L c s) {i : Nat} {item : ι → Option α}
    {f : ι → α} (hp : s.cons = .copying i item)
    (hf : ∀ w, item w = some (f w)) :
    s.pushed[s.popped.length]? = some (L.assemble f) := by
  have hc := hI.cons
  rw [ConsumerInv, hp] at hc
  obtain ⟨-, hlt, hgot⟩ := hc
  have hule := hI.tailSeen
  have hlen : s.popped.length < s.pushed.length := by omega
  have hx := List.getElem?_eq_getElem hlen
  have hfx : f = L.words s.pushed[s.popped.length] := by
    funext w
    exact hgot _ w _ hx (hf w)
  rw [hx, hfx, L.assemble_words]

theorem prefix_snoc {l m : List T} {x : T} (h : l <+: m)
    (hx : m[l.length]? = some x) : l ++ [x] <+: m := by
  obtain ⟨r, rfl⟩ := h
  rw [List.getElem?_append_right (Nat.le_refl _), Nat.sub_self] at hx
  cases r with
  | nil => cases hx
  | cons y r =>
      cases hx
      exact ⟨r, by simp⟩

theorem RingInv.popStore (hI : RingInv L c s) {i : Nat} {item : ι → Option α}
    {f : ι → α} (hp : s.cons = .copying i item)
    (hf : ∀ w, item w = some (f w)) :
    RingInv L c { s with
      head := s.head ++ [c.next i]
      cons := .idle
      popped := s.popped ++ [L.assemble f] } := by
  have hx := hI.assembled hp hf
  have hc := hI.cons
  rw [ConsumerInv, hp] at hc
  obtain ⟨hi, hlt, -⟩ := hc
  have hhl := hI.headLen
  have hseen := hI.headSeen
  refine { hI with
    headLen := ?_, headVal := ?_, headSeen := ?_, popped_le := ?_, stable := ?_,
    fifo := prefix_snoc hI.fifo hx, cons := trivial }
  · simp only [List.length_append, List.length_singleton]
    omega
  · intro k h hh
    rcases getElem?_stored hh with hh | ⟨rfl, rfl⟩
    · exact hI.headVal k h hh
    · rw [hi, c.next_mod, hhl]
  · simp only [List.length_append]
    omega
  · simp only [List.length_append, List.length_singleton]
    omega
  · intro k y v hk
    simp only [List.length_append, List.length_singleton] at hk
    exact hI.stable k y v (by omega)

/-! ## Every step keeps the invariant -/

variable [Fintype ι] [DecidableEq ι]

theorem RingInv.step (hI : RingInv L c s) {a : Action T ι}
    (h : step L c s a = some t) : RingInv L c t := by
  cases a with
  | push x =>
      obtain ⟨v, -, hv, rfl⟩ := step_push h
      refine hI.withProd _ ?_
      rw [List.getLast?_eq_getElem?, hI.tailLen, Nat.add_sub_cancel] at hv
      exact hI.tailVal _ v hv
  | pushCheck j =>
      obtain ⟨x, i, v, hp, hj, hv, hcase⟩ := step_pushCheck h
      have hi : i = s.pushed.length % c.N := by
        have := hI.prod
        rwa [ProducerInv, hp] at this
      rcases hcase with ⟨heq, rfl⟩ | ⟨hne, rfl⟩
      · obtain ⟨hq, -⟩ := hI.full hj hv hi heq
        exact (hI.withProd .idle trivial).observeHead hj hq trivial
      · obtain ⟨hq, hroom⟩ := hI.room hj hv hi hne
        exact (hI.withProd .idle trivial).observeHead hj hq trivial
          |>.withProd _ ⟨hi, hroom, fun b w _ hw => absurd (Finset.mem_univ w) hw⟩
  | pushWord w =>
      obtain ⟨x, i, todo, b, hp, hb, -, rfl⟩ := step_pushWord h
      exact hI.pushWord hp hb
  | pushStore =>
      obtain ⟨x, i, hp, rfl⟩ := step_pushStore h
      exact hI.pushStore hp
  | pushQuery q j =>
      obtain ⟨v, hp, hj, hv, rfl⟩ := step_pushQuery h
      have hlen := (List.getElem?_eq_some_iff.mp hv).1
      have hhl := hI.headLen
      refine hI.observeHead hj (by omega) ?_
      rw [ProducerInv]
      simp only [hp]
  | pop =>
      obtain ⟨v, -, hv, rfl⟩ := step_pop h
      refine hI.withCons _ ?_
      rw [List.getLast?_eq_getElem?, hI.headLen, Nat.add_sub_cancel] at hv
      exact hI.headVal _ v hv
  | popCheck j =>
      obtain ⟨i, v, hp, hj, hv, hcase⟩ := step_popCheck h
      have hi : i = s.popped.length % c.N := by
        have := hI.cons
        rwa [ConsumerInv, hp] at this
      rcases hcase with ⟨-, rfl⟩ | ⟨hne, rfl⟩
      · exact (hI.acquire hj hv).withCons _ trivial
      · refine (hI.acquire hj hv).withCons _ ⟨hi, hI.available hj hv hi hne, ?_⟩
        intro x w a _ ha
        cases ha
  | popWord w m =>
      obtain ⟨i, item, b, hp, hb, hm, -, rfl⟩ := step_popWord h
      exact hI.popWord hp hb hm
  | popStore =>
      obtain ⟨i, item, f, hp, hf, rfl⟩ := step_popStore h
      exact hI.popStore hp hf
  | popQuery q j =>
      obtain ⟨v, -, hj, hv, rfl⟩ := step_popQuery h
      exact hI.acquire hj hv

/-- **The ring invariant holds in every reachable state.** -/
theorem ringInv_reachable {b : Nat → ι → α}
    (h : Reachable (Spsc.step L c) (init b) s) : RingInv L c s :=
  h.invariant (fun _ _ _ hs ht => hs.step ht) (inv_init b)

end UltrafastFeed.Spsc
