import UltrafastFeed.Lib.Histories
import UltrafastFeed.Spsc.Queries
import UltrafastFeed.Spsc.Sequential

/-!
# Spsc — Linearizable

The two parties of the ring against the bounded queue of `Sequential`.
Each call takes effect at one of its own steps: a `push` or `pop` that
succeeds when it stores its index, one that is refused and a query when
they load the other party's index.

What a stale load can do is bounded. The producer may miss the last `pop`s
and then sees these items still in the queue; the consumer may miss the
last `push`es. So a `push` or `pop` that succeeds does what it does on the
queue, and a refusal or a query answers as a queue would that lags behind.
With loads of the newest values the lag is zero, and the ring is the
queue.

LEFT OUT. `peek`, which returns a pointer; what its caller reads behind
it takes further steps (`Peek`).
-/

namespace UltrafastFeed.Spsc

open Lib.Run Lib.Histories Function

variable {T ι α : Type}

inductive Party where
  | producer
  | consumer
  deriving DecidableEq, Repr

/-! ## The queue seen late -/

/-- What a party may take for the queue `q`, if it misses at most `k`
calls of the other: for the producer the items popped last are still
there, for the consumer those pushed last are not. -/
def Behind (k : Nat) : Party → List T → List T → Prop
  | .producer, v, q => ∃ missed, v = missed ++ q ∧ missed.length ≤ k
  | .consumer, v, q => ∃ missed, q = v ++ missed ∧ missed.length ≤ k

/-- The bounded queue. -/
def bounded (cap : Nat) : Spec Party (Call T) (Answer T) (List T) :=
  fun q _ op res q' => queue cap q op = (res, q')

/-- A call that changes the queue does so as on the queue itself; any
other may answer for a queue seen late. -/
def lagged (cap k : Nat) : Spec Party (Call T) (Answer T) (List T) :=
  fun q p op res q' =>
    queue cap q op = (res, q') ∨ q' = q ∧ ∃ v, Behind k p v q ∧ queue cap v op = (res, v)

theorem behind_zero {p : Party} {v q : List T} (h : Behind 0 p v q) : v = q := by
  cases p with
  | producer =>
      obtain ⟨missed, rfl, hlen⟩ := h
      rw [List.eq_nil_of_length_eq_zero (Nat.le_zero.mp hlen), List.nil_append]
  | consumer =>
      obtain ⟨missed, rfl, hlen⟩ := h
      rw [List.eq_nil_of_length_eq_zero (Nat.le_zero.mp hlen), List.append_nil]

/-- Who misses nothing uses the queue. -/
theorem bounded_of_lagged_zero {cap : Nat} {q q' : List T} {p : Party} {op : Call T}
    {res : Answer T} (h : lagged cap 0 q p op res q') : bounded cap q p op res q' := by
  rcases h with h | ⟨rfl, v, hv, h⟩
  · exact h
  · rw [behind_zero hv] at h
    exact h

/-! ## What the ring shows -/

/-- A query on the loaded indices. -/
def Query.answer (c : Capacity) (t h : Nat) : Query → Option (Call T × Answer T)
  | .empty => some (.empty, .flag (Spsc.empty h t))
  | .full => some (.full, .flag (Spsc.full c t h))
  | .size => some (.size, .count (Spsc.size c t h))
  | .peek => none

def asked (c : Capacity) (p : Party) (q : Query) :
    Option (Nat × Nat) → List (Event Party (Call T) (Answer T))
  | some (t, h) =>
      match q.answer c t h with
      | some (op, res) => [.call p op, .ret p res]
      | none => []
  | none => []

/-- What a step into `t` shows of the calls. -/
def emit (c : Capacity) : Action T ι → State T ι α → List (Event Party (Call T) (Answer T))
  | .push x, _ => [.call .producer (.push x)]
  | .pushCheck _, t =>
      match t.prod with
      | .idle => [.ret .producer (.accepted false)]
      | _ => []
  | .pushWord _, _ => []
  | .pushStore, _ => [.ret .producer (.accepted true)]
  | .pushQuery q j, t => asked c .producer q (t.producerLoads j)
  | .pop, _ => [.call .consumer .pop]
  | .popCheck _, t =>
      match t.cons with
      | .idle => [.ret .consumer (.item none)]
      | _ => []
  | .popWord _ _, _ => []
  | .popStore, t => [.ret .consumer (.item t.popped.getLast?)]
  | .popQuery q j, t => asked c .consumer q (t.consumerLoads j)

/-- How many values newer than the loaded one there are. -/
def State.lag (s : State T ι α) : Action T ι → Nat
  | .pushCheck j | .pushQuery _ j => s.head.length - 1 - j
  | .popCheck j | .popQuery _ j => s.tail.length - 1 - j
  | _ => 0

/-! ## The abstraction -/

def Producer.phase : Producer T ι → Phase (Call T) (Answer T)
  | .idle => .idle
  | .loaded x _ => .called (.push x)
  | .copying x _ _ => .called (.push x)

def Consumer.phase : Consumer ι α → Phase (Call T) (Answer T)
  | .idle => .idle
  | .loaded _ => .called .pop
  | .copying _ _ => .called .pop

def State.phase (s : State T ι α) : Party → Phase (Call T) (Answer T)
  | .producer => s.prod.phase
  | .consumer => s.cons.phase

/-- The items between the stored indices, and where the parties are. -/
def State.atomic (s : State T ι α) : Atomic Party (Call T) (Answer T) (List T) where
  val := s.pushed.drop s.popped.length
  phase := s.phase

section Phases

variable {s t : State T ι α}

/-- After a step of the producer. -/
theorem atomic_producer (h : t.cons = s.cons) :
    t.atomic = ⟨t.pushed.drop t.popped.length, update s.phase .producer t.prod.phase⟩ := by
  rw [State.atomic]
  congr 1
  funext p
  cases p with
  | producer => rw [update_self, State.phase]
  | consumer => rw [update_of_ne (by decide), State.phase, State.phase, h]

/-- After a step of the consumer. -/
theorem atomic_consumer (h : t.prod = s.prod) :
    t.atomic = ⟨t.pushed.drop t.popped.length, update s.phase .consumer t.cons.phase⟩ := by
  rw [State.atomic]
  congr 1
  funext p
  cases p with
  | producer => rw [update_of_ne (by decide), State.phase, State.phase, h]
  | consumer => rw [update_self, State.phase]

/-- A step that changes neither the items nor the phases. -/
theorem atomic_eq (hpushed : t.pushed = s.pushed) (hpopped : t.popped = s.popped)
    (hphase : t.phase = s.phase) : t.atomic = s.atomic := by
  rw [State.atomic, State.atomic, hpushed, hpopped, hphase]

theorem phase_eq (hprod : (t.prod.phase : Phase (Call T) (Answer T)) = s.prod.phase)
    (hcons : (t.cons.phase : Phase (Call T) (Answer T)) = s.cons.phase) : t.phase = s.phase := by
  funext p
  cases p with
  | producer => exact hprod
  | consumer => exact hcons

end Phases

/-! ## Views -/

section Views

variable {L : TriviallyCopyable T ι α} {c : Capacity} {s : State T ι α} {j k : Nat}

/-- A producer that loads position `j` of `head_` sees the items from `j`
on. -/
theorem RingInv.behind_producer (hI : RingInv L c s) (hj : j ≤ s.popped.length)
    (hk : s.head.length - 1 - j ≤ k) :
    Behind k .producer (s.pushed.drop j) (s.pushed.drop s.popped.length) := by
  refine ⟨(s.pushed.drop j).take (s.popped.length - j), ?_, ?_⟩
  · conv_lhs => rw [← List.take_append_drop (s.popped.length - j) (s.pushed.drop j)]
    rw [List.drop_drop, Nat.add_sub_cancel' hj]
  · have hlen := hI.headLen
    rw [List.length_take]
    omega

/-- A consumer that loads position `j` of `tail_` sees the items before
`j`. -/
theorem RingInv.behind_consumer (hI : RingInv L c s) (hj : s.popped.length ≤ j)
    (hk : s.tail.length - 1 - j ≤ k) :
    Behind k .consumer ((s.pushed.take j).drop s.popped.length)
      (s.pushed.drop s.popped.length) := by
  refine ⟨s.pushed.drop j, ?_, ?_⟩
  · conv_lhs => rw [← List.take_append_drop j s.pushed]
    by_cases hle : j ≤ s.pushed.length
    · rw [List.drop_append_of_le_length]
      rw [List.length_take, Nat.min_eq_left hle]
      exact hj
    · rw [List.drop_eq_nil_of_le (Nat.le_of_not_le hle), List.append_nil, List.append_nil]
  · have hlen := hI.tailLen
    rw [List.length_drop]
    omega

/-- **No load is further behind than the capacity.** -/
theorem RingInv.lag_le [Fintype ι] [DecidableEq ι] (hI : RingInv L c s) {a : Action T ι}
    {t : State T ι α} (h : Spsc.step L c s a = some t) : s.lag a ≤ c.N - 1 := by
  have hheads := hI.headLen
  have htails := hI.tailLen
  have hgap := hI.gap
  have hseen := hI.headSeen
  have hpop := hI.popped_le
  have htail := hI.tailSeen
  cases a with
  | pushCheck j =>
      obtain ⟨x, i, v, -, hj, -⟩ := step_pushCheck h
      simp only [State.lag]
      omega
  | pushQuery q j =>
      obtain ⟨v, -, hj, -⟩ := step_pushQuery h
      simp only [State.lag]
      omega
  | popCheck j =>
      obtain ⟨i, v, -, hj, -⟩ := step_popCheck h
      simp only [State.lag]
      omega
  | popQuery q j =>
      obtain ⟨v, -, hj, -⟩ := step_popQuery h
      simp only [State.lag]
      omega
  | push | pushWord | pushStore | pop | popWord | popStore => exact Nat.zero_le _

/-- The queries on indices whose counters are `p` and `h`, for a queue of
`p - h` items. -/
theorem Query.answer_queue {p h : Nat} (hle : h ≤ p) (hlt : p < h + c.N) {v : List T}
    (hv : v.length = p - h) {q : Query} {op : Call T} {res : Answer T}
    (hq : q.answer c (p % c.N) (h % c.N) = some (op, res)) :
    queue (c.N - 1) v op = (res, v) := by
  have hpos := c.two_le
  cases q with
  | empty =>
      cases hq
      have hiff : (h % c.N = p % c.N) ↔ p - h = 0 := by
        constructor
        · intro heq
          have := eq_of_mod_eq hle hlt heq
          omega
        · intro hz
          rw [show h = p by omega]
      simp only [queue, Spsc.empty, hv]
      rw [← decide_eq_decide.mpr hiff]
      rfl
  | full =>
      cases hq
      have hiff : ((p + 1) % c.N = h % c.N) ↔ p - h = c.N - 1 := by
        constructor
        · intro heq
          by_contra hne
          have := eq_of_mod_eq (n := c.N) (i := h) (j := p + 1) (by omega) (by omega) heq.symm
          omega
        · intro heq
          rw [show p + 1 = h + c.N by omega, Nat.add_mod_right]
      simp only [queue, Spsc.full, hv, c.next_mod]
      rw [← decide_eq_decide.mpr hiff]
      rfl
  | size =>
      cases hq
      rw [size_mod c hle hlt, queue, hv]
  | peek => cases hq

end Views

/-! ## The simulation -/

section Simulation

variable {L : TriviallyCopyable T ι α} {c : Capacity} {s t : State T ι α} {k : Nat}

/-- A query changes nothing and answers for what its party sees. -/
theorem runs_asked {p : Party} {q : Query} {loads : Option (Nat × Nat)}
    (hidle : s.phase p = .idle)
    (hans : ∀ tl hd, loads = some (tl, hd) → ∀ op res, q.answer c tl hd = some (op, res) →
      lagged (c.N - 1) k s.atomic.val p op res s.atomic.val) :
    Runs (lagged (c.N - 1) k) s.atomic (asked c p q loads) s.atomic := by
  cases loads with
  | none => exact .refl _
  | some l =>
      obtain ⟨tl, hd⟩ := l
      rw [asked]
      split
      next op res heq => exact .asks hidle (hans tl hd rfl op res heq)
      next => exact .refl _

variable [Fintype ι] [DecidableEq ι]

theorem RingInv.runs_push (hI : RingInv L c s) {a : Action T ι} (ha : a.byProducer = true)
    (h : Spsc.step L c s a = some t) (hlag : s.lag a ≤ k) :
    Runs (lagged (c.N - 1) k) s.atomic (emit c a t) t.atomic := by
  have hI' := hI.step h
  cases a with
  | push x =>
      obtain ⟨v, hidle, -, ht⟩ := Spsc.step_push h
      rw [atomic_producer (s := s) (t := t) (by rw [ht])]
      subst ht
      exact .calls (congrArg Producer.phase hidle)
  | pushCheck j =>
      obtain ⟨x, i, v, hp, hj, hv, ⟨heq, ht⟩ | ⟨-, ht⟩⟩ := step_pushCheck h
      · -- refused: `N - 1` items in the producer's view
        have hi : i = s.pushed.length % c.N := by
          have := hI.prod
          rwa [ProducerInv, hp] at this
        obtain ⟨hle, hfull⟩ := hI.full hj hv hi heq
        have hview : (s.pushed.drop j).length = c.N - 1 := by
          rw [List.length_drop]
          omega
        rw [atomic_producer (s := s) (t := t) (by rw [ht])]
        subst ht
        exact .returns (congrArg Producer.phase hp)
          (.inr ⟨rfl, _, hI.behind_producer hle hlag, by rw [queue, if_pos hview]⟩)
      · rw [atomic_eq (s := s) (t := t) (by rw [ht]) (by rw [ht])
          (phase_eq (by rw [ht, hp]; rfl) (by rw [ht]))]
        subst ht
        exact .refl _
  | pushWord w =>
      obtain ⟨x, i, todo, b, hp, -, -, ht⟩ := step_pushWord h
      rw [atomic_eq (s := s) (t := t) (by rw [ht]) (by rw [ht])
        (phase_eq (by rw [ht, hp]; rfl) (by rw [ht]))]
      exact .refl _
  | pushStore =>
      obtain ⟨x, i, hp, ht⟩ := step_pushStore h
      have hprod := hI.prod
      rw [ProducerInv, hp] at hprod
      obtain ⟨-, hroom, -⟩ := hprod
      have hseen := hI.headSeen
      have hpop := hI.popped_le
      have htail := hI.tailSeen
      have hne : (s.pushed.drop s.popped.length).length ≠ c.N - 1 := by
        rw [List.length_drop]
        omega
      have hval : t.pushed.drop t.popped.length = s.pushed.drop s.popped.length ++ [x] := by
        rw [ht, List.drop_append_of_le_length (Nat.le_trans hpop htail)]
      rw [atomic_producer (s := s) (t := t) (by rw [ht]), hval]
      subst ht
      exact .returns (congrArg Producer.phase hp)
        (.inl (by rw [State.atomic, queue, if_neg hne]))
  | pushQuery q j =>
      obtain ⟨v, hidle, hj, hv, ht⟩ := step_pushQuery h
      rw [atomic_eq (s := s) (t := t) (by rw [ht]) (by rw [ht])
        (phase_eq (by rw [ht]) (by rw [ht]))]
      refine runs_asked (congrArg Producer.phase hidle) fun tl hd hl op res hq => ?_
      obtain ⟨-, hle, rfl, rfl⟩ := hI'.producerLoads hl
      rw [show t.pushed = s.pushed by rw [ht]] at hq
      rw [show t.popped = s.popped by rw [ht]] at hle
      have hgap := hI.gap
      have hpop := hI.popped_le
      have htail := hI.tailSeen
      have hpos := c.two_le
      refine .inr ⟨rfl, _, hI.behind_producer hle hlag, ?_⟩
      exact Query.answer_queue (by omega) (by omega) List.length_drop hq
  | pop | popCheck | popWord | popStore | popQuery => cases ha

theorem RingInv.runs_pop (hI : RingInv L c s) {a : Action T ι} (ha : a.byProducer = false)
    (h : Spsc.step L c s a = some t) (hlag : s.lag a ≤ k) :
    Runs (lagged (c.N - 1) k) s.atomic (emit c a t) t.atomic := by
  have hI' := hI.step h
  cases a with
  | pop =>
      obtain ⟨v, hidle, -, ht⟩ := Spsc.step_pop h
      rw [atomic_consumer (s := s) (t := t) (by rw [ht])]
      subst ht
      exact .calls (congrArg Consumer.phase hidle)
  | popCheck j =>
      obtain ⟨i, v, hp, hj, hv, ⟨heq, ht⟩ | ⟨-, ht⟩⟩ := step_popCheck h
      · -- nothing there: no item in the consumer's view
        have hi : i = s.popped.length % c.N := by
          have := hI.cons
          rwa [ConsumerInv, hp] at this
        have hdrained := hI.drained hj hv hi heq
        have hview : (s.pushed.take j).drop s.popped.length = [] := by
          apply List.drop_eq_nil_of_le
          rw [List.length_take]
          omega
        rw [atomic_consumer (s := s) (t := t) (by rw [ht]; rfl)]
        subst ht
        exact .returns (congrArg Consumer.phase hp)
          (.inr ⟨rfl, _, hI.behind_consumer (Nat.le_of_eq hdrained.symm) hlag, by
            rw [hview]
            rfl⟩)
      · rw [atomic_eq (s := s) (t := t) (by rw [ht]; rfl) (by rw [ht]; rfl)
          (phase_eq (by rw [ht]; rfl) (by rw [ht, hp]; rfl))]
        subst ht
        exact .refl _
  | popWord w m =>
      obtain ⟨i, item, b, hp, -, -, -, ht⟩ := step_popWord h
      rw [atomic_eq (s := s) (t := t) (by rw [ht]) (by rw [ht])
        (phase_eq (by rw [ht]) (by rw [ht, hp]; rfl))]
      exact .refl _
  | popStore =>
      obtain ⟨i, item, f, hp, hf, ht⟩ := step_popStore h
      have hhead : (s.pushed.drop s.popped.length).head? = some (L.assemble f) := by
        rw [List.head?_drop, hI.assembled hp hf]
      have hval : t.pushed.drop t.popped.length = (s.pushed.drop s.popped.length).tail := by
        rw [ht, List.length_append, List.length_singleton, List.tail_drop]
      have hlast : t.popped.getLast? = some (L.assemble f) := by
        rw [ht, List.getLast?_concat]
      rw [atomic_consumer (s := s) (t := t) (by rw [ht]), hval, emit, hlast]
      subst ht
      exact .returns (congrArg Consumer.phase hp) (.inl (by rw [State.atomic, queue, hhead]))
  | popQuery q j =>
      obtain ⟨v, hidle, hj, hv, ht⟩ := step_popQuery h
      rw [atomic_eq (s := s) (t := t) (by rw [ht]; rfl) (by rw [ht]; rfl)
        (phase_eq (by rw [ht]; rfl) (by rw [ht]; rfl))]
      refine runs_asked (congrArg Consumer.phase hidle) fun tl hd hl op res hq => ?_
      obtain ⟨-, hle, rfl, rfl⟩ := hI'.consumerLoads hl
      rw [show t.popped = s.popped by rw [ht]; rfl] at hq
      rw [show t.pushed = s.pushed by rw [ht]; rfl] at hle
      have hgap := hI.gap
      have hseen := hI.headSeen
      have hpop := hI.popped_le
      have hpos := c.two_le
      refine .inr ⟨rfl, _, hI.behind_consumer (Nat.le_trans hpop hj) hlag, ?_⟩
      refine Query.answer_queue (Nat.le_trans hpop hj) (by omega) ?_ hq
      rw [List.length_drop, List.length_take, Nat.min_eq_left hle]
  | push | pushCheck | pushWord | pushStore | pushQuery => cases ha

theorem RingInv.runs (hI : RingInv L c s) {a : Action T ι} (h : Spsc.step L c s a = some t)
    (hlag : s.lag a ≤ k) : Runs (lagged (c.N - 1) k) s.atomic (emit c a t) t.atomic := by
  cases ha : a.byProducer with
  | true => exact hI.runs_push ha h hlag
  | false => exact hI.runs_pop ha h hlag

/-- No load is ever further behind than the capacity. -/
theorem meets_capacity (hI : RingInv L c s) {as : List (Action T ι)}
    (hrun : run (Spsc.step L c) s as = some t) :
    Meets (Spsc.step L c) (fun s a => s.lag a ≤ c.N - 1) s as := by
  induction as generalizing s with
  | nil => trivial
  | cons a as ih =>
      obtain ⟨u, hu, hrest⟩ := run_cons.mp hrun
      exact (meets_cons hu).mpr ⟨hI.lag_le hu, ih (hI.step hu) hrest⟩

end Simulation

/-- What the two parties see of the ring in a run from a fresh one. -/
def calls [Fintype ι] [DecidableEq ι] (L : TriviallyCopyable T ι α) (c : Capacity)
    (b : Nat → ι → α) (as : List (Action T ι)) : List (Event Party (Call T) (Answer T)) :=
  history (step L c) (emit c) (init b) as

/-- **The ring is a concurrent queue.** In every interleaving of the
producer's `push`, `empty`, `full`, `size` and the consumer's `pop`,
`empty`, `full`, `size`, each call takes effect at one moment between its
beginning and its return. If no load misses more than the `k` newest
values of the other party's index, then at that moment a call that
succeeds does what it does on a FIFO queue of capacity `N - 1`, and a
refusal or a query answers as that queue did or would with at most the
last `k` calls of the other party missing. `k = N - 1` always will do;
and when every load returns the newest value, the ring is the queue. -/
theorem ring_linearizable [Fintype ι] [DecidableEq ι] (L : TriviallyCopyable T ι α)
    (c : Capacity) (b : Nat → ι → α) (as : List (Action T ι)) (s : State T ι α)
    (hrun : run (step L c) (init b) as = some s) :
    Linearizable (lagged (c.N - 1) (c.N - 1)) [] (calls L c b as) ∧
    (∀ k, Meets (step L c) (fun s a => s.lag a ≤ k) (init b) as →
      Linearizable (lagged (c.N - 1) k) [] (calls L c b as)) ∧
    (Meets (step L c) (fun s a => s.lag a = 0) (init b) as →
      Linearizable (bounded (c.N - 1)) [] (calls L c b as)) := by
  have hI : RingInv L c (init b) := inv_init b
  have hinit : (init b : State T ι α).atomic = ⟨[], fun _ => .idle⟩ := by
    rw [State.atomic]
    congr 1
    funext p
    cases p <;> rfl
  have hall : ∀ k, Meets (step L c) (fun s a => s.lag a ≤ k) (init b) as →
      Runs (lagged (c.N - 1) k) ⟨[], fun _ => .idle⟩ (calls L c b as) s.atomic := by
    intro k hmeets
    have hinv : ∀ s a t, RingInv L c s → step L c s a = some t → RingInv L c t :=
      fun _ _ _ hI h => hI.step h
    rw [← hinit]
    exact runs_of_simulates hinv (fun _ _ _ hI hlag h => hI.runs h hlag) hI hmeets hrun
  refine ⟨⟨_, hall _ (meets_capacity hI hrun)⟩, fun k hmeets => ⟨_, hall k hmeets⟩,
    fun hmeets => ?_⟩
  have hzero := hall 0 (hmeets.mono fun _ _ h => Nat.le_of_eq h)
  exact ⟨_, hzero.mono fun _ _ _ _ _ => bounded_of_lagged_zero⟩

/-- The `pop` begins before the `push` has stored and returns its item;
the second `push` finds the ring of two slots full or not, depending on
what its load returns. -/
def overlapping (j : Nat) : List (Action (Fin 2 → Nat) (Fin 2)) :=
  twoWordRun.take 11 ++ [.pushCheck j, .popQuery .size 1]

theorem ring_linearizable_overlapping :
    Linearizable (bounded 1) [] (calls twoWords twoSlots (fun _ _ => 0) (overlapping 1)) ∧
    Linearizable (lagged 1 1) [] (calls twoWords twoSlots (fun _ _ => 0) (overlapping 0)) := by
  have hnew : (run (step twoWords twoSlots) (init fun _ _ => 0) (overlapping 1)).isSome := by
    decide
  have hold : (run (step twoWords twoSlots) (init fun _ _ => 0) (overlapping 0)).isSome := by
    decide
  obtain ⟨s, hs⟩ := Option.isSome_iff_exists.mp hnew
  obtain ⟨t, ht⟩ := Option.isSome_iff_exists.mp hold
  obtain ⟨-, -, hbounded⟩ := ring_linearizable twoWords twoSlots _ (overlapping 1) s hs
  obtain ⟨hlagged, -, -⟩ := ring_linearizable twoWords twoSlots _ (overlapping 0) t ht
  exact ⟨hbounded (by decide), hlagged⟩

end UltrafastFeed.Spsc
