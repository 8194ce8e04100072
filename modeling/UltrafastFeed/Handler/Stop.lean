import Mathlib.Logic.Function.Basic
import UltrafastFeed.Handler.Restart

/-!
# FeedHandler — stop() from several threads

`stop()` cut into its steps: the flag is set, `joinable()` is tested, the
RX thread is waited for and joined, the call returns. Any number of
threads make such calls, one after the other each, while the RX thread,
the kernel and the consumer go on; nobody starts the handler again.

The test and the join are two steps on an object that nothing guards, so
a second caller may pass the test before the first has joined. Both then
wait for the same thread, and the one that comes second joins a thread
object that has been joined: `std::thread::join` throws. A call that
returns, on the other hand, does so after the RX thread is done, whatever
the interleaving.
-/

namespace UltrafastFeed.Handler

open Lib.Run Function

/-! ## The model -/

/-- `rx_thread_.joinable()`: from its construction to its join. -/
def joinable : Rx → Bool
  | .down | .starting | .priming => false
  | _ => true

/-- The RX thread has left `rx_loop`. -/
def finished : Rx → Bool
  | .exited | .down => true
  | _ => false

/-- Where a thread is in `stop()`. -/
inductive Caller where
  | outside
  | flagged
  | joining
  | leaving
  deriving DecidableEq, Repr

structure Stopping (Θ ι α : Type) where
  handler : State ι α
  caller : Θ → Caller
  /-- Calls of `join` on a thread object that had been joined. -/
  badJoins : Nat
  /-- Calls of `stop()` that returned before the RX thread was done. -/
  earlyReturns : Nat

inductive StopAction (Θ ι : Type) where
  | setFlag (i : Θ)
  | testJoinable (i : Θ)
  | join (i : Θ)
  | ret (i : Θ)
  -- the RX thread, the kernel and the consumer
  | other (a : Action ι)

variable {Θ ι α : Type}

/-- The steps of `start()` and `stop()`. -/
def isControl : Action ι → Bool
  | .start | .populate | .populateSubmit | .stop | .join => true
  | _ => false

/-- Nobody is inside `stop()`. -/
def Stopping.init (h : State ι α) : Stopping Θ ι α := ⟨h, fun _ => .outside, 0, 0⟩

def stopStep [DecidableEq Θ] [Fintype ι] [DecidableEq ι] (x : Umem.Libxdp)
    (L : Spsc.TriviallyCopyable FeedEvent ι α) (s : Stopping Θ ι α) :
    StopAction Θ ι → Option (Stopping Θ ι α)
  | .setFlag i =>
      match s.caller i with
      | .outside =>
          (step x L s.handler .stop).map fun h =>
            { s with handler := h, caller := update s.caller i .flagged }
      | _ => none
  | .testJoinable i =>
      match s.caller i with
      | .flagged =>
          let next := if joinable s.handler.rx then Caller.joining else .leaving
          some { s with caller := update s.caller i next }
      | _ => none
  | .join i =>
      match s.caller i with
      | .joining =>
          if joinable s.handler.rx then
            (step x L s.handler .join).map fun h =>
              { s with handler := h, caller := update s.caller i .leaving }
          else
            -- `std::system_error` leaves `stop()`
            some { s with
              caller := update s.caller i .outside
              badJoins := s.badJoins + 1 }
      | _ => none
  | .ret i =>
      match s.caller i with
      | .leaving =>
          let early := if finished s.handler.rx then 0 else 1
          some { s with
            caller := update s.caller i .outside
            earlyReturns := s.earlyReturns + early }
      | _ => none
  | .other a =>
      if isControl a then none
      else (step x L s.handler a).map fun h => { s with handler := h }

/-! ## The states along the way -/

variable {s t : Stopping Θ ι α} {i j : Θ}

/-- No thread object was joined twice, and no call returned before the RX
thread was done. -/
def Stopping.Safe (s : Stopping Θ ι α) : Prop := s.badJoins = 0 ∧ s.earlyReturns = 0

/-- Joined threads are done, and so is the RX thread when a caller is on
its way out. -/
structure Awaited (s : Stopping Θ ι α) : Prop where
  joined : joinable s.handler.rx = false → finished s.handler.rx = true
  leaving : ∀ i, s.caller i = .leaving → finished s.handler.rx = true
  returns : s.earlyReturns = 0

theorem awaited_init {h : State ι α} (hstarted : joinable h.rx = true) :
    Awaited (Stopping.init h : Stopping Θ ι α) where
  joined hj := by
    rw [Stopping.init, hstarted] at hj
    cases hj
  leaving i hi := by cases hi
  returns := rfl

/-- `joinable()` is tested while nobody is about to join. -/
def TestsAlone (s : Stopping Θ ι α) (a : StopAction Θ ι) : Prop :=
  ∀ i, a = .testJoinable i → ∀ j, s.caller j ≠ .joining

/-- At most one caller is about to join, and what it joins is joinable. -/
structure OneJoiner (s : Stopping Θ ι α) : Prop where
  unique : ∀ i j, s.caller i = .joining → s.caller j = .joining → i = j
  joinable : ∀ i, s.caller i = .joining → joinable s.handler.rx = true
  joins : s.badJoins = 0

theorem oneJoiner_init (h : State ι α) : OneJoiner (Stopping.init h : Stopping Θ ι α) where
  unique i j hi := by cases hi
  joinable i hi := by cases hi
  joins := rfl

/-- A thread object has been joined twice, or will be when the callers
that are past the test go on. -/
def Fatal (s : Stopping Θ ι α) : Prop :=
  0 < s.badJoins ∨ ∃ i, s.caller i = .joining ∧
    (joinable s.handler.rx = false ∨ ∃ j, j ≠ i ∧ s.caller j = .joining)

section Update

variable [DecidableEq Θ]

/-- A caller moves alone. -/
theorem joining_update {c : Caller} :
    update s.caller i c j = .joining ↔ j = i ∧ c = .joining ∨ j ≠ i ∧ s.caller j = .joining := by
  by_cases hj : j = i
  · subst hj
    simp
  · simp [hj]

/-- A caller that is not about to join changes nothing here. -/
theorem OneJoiner.update {c : Caller} (hs : OneJoiner s) (hc : c ≠ .joining) {h : State ι α}
    {n : Nat} (hj : ∀ j, j ≠ i → s.caller j = .joining → Handler.joinable h.rx = true) :
    OneJoiner ⟨h, Function.update s.caller i c, s.badJoins, n⟩ where
  unique j k hj hk := by
    rcases joining_update.mp hj with ⟨-, heq⟩ | ⟨-, hj⟩
    · exact absurd heq hc
    · rcases joining_update.mp hk with ⟨-, heq⟩ | ⟨-, hk⟩
      · exact absurd heq hc
      · exact hs.unique j k hj hk
  joinable j hj' := by
    rcases joining_update.mp hj' with ⟨-, heq⟩ | ⟨hne, hj'⟩
    · exact absurd heq hc
    · exact hj j hne hj'
  joins := hs.joins

/-- A caller that is not past the test changes nothing here. -/
theorem Fatal.update {c : Caller} (hs : Fatal s) (hi : s.caller i ≠ .joining) {h : State ι α}
    {n : Nat} (hj : joinable h.rx = joinable s.handler.rx) :
    Fatal ⟨h, Function.update s.caller i c, s.badJoins, n⟩ := by
  have hkeep : ∀ {k}, s.caller k = .joining → Function.update s.caller i c k = .joining := by
    intro k hk
    have hne : k ≠ i := by
      rintro rfl
      exact hi hk
    rw [update_of_ne hne, hk]
  rcases hs with hbad | ⟨k, hk, hjoined | ⟨l, hne, hl⟩⟩
  · exact .inl hbad
  · exact .inr ⟨k, hkeep hk, .inl (hj.trans hjoined)⟩
  · exact .inr ⟨k, hkeep hk, .inr ⟨l, hne, hkeep hl⟩⟩

end Update

/-! ## What a step can do -/

variable [DecidableEq Θ] [Fintype ι] [DecidableEq ι]
variable {x : Umem.Libxdp} {L : Spsc.TriviallyCopyable FeedEvent ι α}

theorem stopStep_setFlag (h : stopStep x L s (.setFlag i) = some t) :
    s.caller i = .outside ∧
      t = { s with
        handler := { s.handler with stopFlag := true }
        caller := update s.caller i .flagged } := by
  simp only [stopStep] at h
  split at h
  next hi => exact ⟨hi, (Option.some.inj h).symm⟩
  next => cases h

theorem stopStep_testJoinable (h : stopStep x L s (.testJoinable i) = some t) :
    s.caller i = .flagged ∧
      t = { s with
        caller := update s.caller i
          (if joinable s.handler.rx then .joining else .leaving) } := by
  simp only [stopStep] at h
  split at h
  next hi => exact ⟨hi, (Option.some.inj h).symm⟩
  next => cases h

theorem stopStep_join (h : stopStep x L s (.join i) = some t) :
    s.caller i = .joining ∧
      (s.handler.rx = .exited ∧
          t = { s with
            handler := { s.handler with rx := .down }
            caller := update s.caller i .leaving } ∨
        joinable s.handler.rx = false ∧
          t = { s with
            caller := update s.caller i .outside
            badJoins := s.badJoins + 1 }) := by
  simp only [stopStep] at h
  split at h
  next hi =>
    refine ⟨hi, ?_⟩
    split at h
    next hj =>
      obtain ⟨h', hstep, rfl⟩ := Option.map_eq_some_iff.mp h
      cases step_moves hstep with
      | join hrx => exact .inl ⟨hrx, rfl⟩
    next hj => exact .inr ⟨by simpa using hj, (Option.some.inj h).symm⟩
  next => cases h

theorem stopStep_ret (h : stopStep x L s (.ret i) = some t) :
    s.caller i = .leaving ∧
      t = { s with
        caller := update s.caller i .outside
        earlyReturns := s.earlyReturns + if finished s.handler.rx then 0 else 1 } := by
  simp only [stopStep] at h
  split at h
  next hi => exact ⟨hi, (Option.some.inj h).symm⟩
  next => cases h

theorem stopStep_other {a : Action ι} (h : stopStep x L s (.other a) = some t) :
    isControl a = false ∧ ∃ h', step x L s.handler a = some h' ∧
      t = { s with handler := h' } := by
  simp only [stopStep] at h
  split at h
  next => cases h
  next ha =>
    obtain ⟨h', hstep, rfl⟩ := Option.map_eq_some_iff.mp h
    exact ⟨by simpa using ha, h', hstep, rfl⟩

/-- The thread object changes in `start()` and `stop()` only. -/
theorem step_joinable {u v : State ι α} {a : Action ι} (h : step x L u a = some v)
    (ha : isControl a = false) : joinable v.rx = joinable u.rx := by
  cases step_moves h with
  | @burstDone f hrx _ =>
      rw [hrx]
      by_cases hheld : f.held = []
      · simp [joinable, hheld]
      · simp [joinable, hheld]
  | _ => simp_all [joinable, isControl, State.finish]

/-- A thread that is done stays so. -/
theorem step_finished {u v : State ι α} {a : Action ι} (h : step x L u a = some v)
    (ha : isControl a = false) (hu : finished u.rx = true) : finished v.rx = true := by
  cases step_moves h <;> simp_all [finished, isControl]

/-! ## Nobody returns early -/

theorem Awaited.step {a : StopAction Θ ι} (hs : Awaited s) (h : stopStep x L s a = some t) :
    Awaited t := by
  obtain ⟨hjoined, hleaving, hreturns⟩ := hs
  cases a with
  | setFlag i =>
      obtain ⟨-, rfl⟩ := stopStep_setFlag h
      refine ⟨hjoined, fun j hj => ?_, hreturns⟩
      by_cases hji : j = i
      · simp [hji] at hj
      · exact hleaving j (by simpa [hji] using hj)
  | testJoinable i =>
      obtain ⟨-, rfl⟩ := stopStep_testJoinable h
      refine ⟨hjoined, fun j hj => ?_, hreturns⟩
      by_cases hji : j = i
      · -- the test failed, so the thread has been joined
        apply hjoined
        by_contra hjoinable
        simp [hji, hjoinable] at hj
      · exact hleaving j (by simpa [hji] using hj)
  | join i =>
      obtain ⟨-, ⟨-, rfl⟩ | ⟨hj, rfl⟩⟩ := stopStep_join h
      · exact ⟨fun _ => rfl, fun _ _ => rfl, hreturns⟩
      · exact ⟨hjoined, fun _ _ => hjoined hj, hreturns⟩
  | ret i =>
      obtain ⟨hi, rfl⟩ := stopStep_ret h
      have hfinished := hleaving i hi
      exact ⟨hjoined, fun _ _ => hfinished, by simp [hreturns, hfinished]⟩
  | other a =>
      obtain ⟨ha, h', hstep, rfl⟩ := stopStep_other h
      have hsame := step_joinable hstep ha
      refine ⟨fun hj => step_finished hstep ha (hjoined (hsame ▸ hj)), fun j hj => ?_, hreturns⟩
      exact step_finished hstep ha (hleaving j hj)

/-! ## One caller at a time between the test and the join -/

theorem OneJoiner.step {a : StopAction Θ ι} (hs : OneJoiner s) (hC : TestsAlone s a)
    (h : stopStep x L s a = some t) : OneJoiner t := by
  cases a with
  | setFlag i =>
      obtain ⟨-, rfl⟩ := stopStep_setFlag h
      exact hs.update (by simp) fun j _ => hs.joinable j
  | testJoinable i =>
      obtain ⟨-, rfl⟩ := stopStep_testJoinable h
      have halone := hC i rfl
      refine ⟨fun j k hj hk => ?_, fun j hj => ?_, hs.joins⟩
      · rcases joining_update.mp hj with ⟨rfl, -⟩ | ⟨-, hj⟩
        · rcases joining_update.mp hk with ⟨rfl, -⟩ | ⟨-, hk⟩
          · rfl
          · exact absurd hk (halone k)
        · exact absurd hj (halone j)
      · rcases joining_update.mp hj with ⟨-, hc⟩ | ⟨-, hj⟩
        · by_contra hjoinable
          simp [hjoinable] at hc
        · exact absurd hj (halone j)
  | join i =>
      obtain ⟨hi, ⟨-, rfl⟩ | ⟨hj, -⟩⟩ := stopStep_join h
      · exact hs.update (by simp) fun j hne hj => absurd (hs.unique j i hj hi) hne
      · rw [hs.joinable i hi] at hj
        cases hj
  | ret i =>
      obtain ⟨-, rfl⟩ := stopStep_ret h
      exact hs.update (by simp) fun j _ => hs.joinable j
  | other a =>
      obtain ⟨ha, h', hstep, rfl⟩ := stopStep_other h
      have hsame := step_joinable hstep ha
      exact ⟨hs.unique, fun j hj => hsame.trans (hs.joinable j hj), hs.joins⟩

/-! ## Two callers past the test -/

theorem Fatal.step {a : StopAction Θ ι} (hs : Fatal s) (h : stopStep x L s a = some t) :
    Fatal t := by
  cases a with
  | setFlag i =>
      obtain ⟨hi, rfl⟩ := stopStep_setFlag h
      exact hs.update (by simp [hi]) rfl
  | testJoinable i =>
      obtain ⟨hi, rfl⟩ := stopStep_testJoinable h
      exact hs.update (by simp [hi]) rfl
  | join i =>
      obtain ⟨hi, ⟨hrx, rfl⟩ | ⟨-, rfl⟩⟩ := stopStep_join h
      · rcases hs with hbad | ⟨k, hk, hjoined | ⟨l, hne, hl⟩⟩
        · exact .inl hbad
        · rw [hrx] at hjoined
          cases hjoined
        · -- one of the two is not the one that joins, and comes too late
          by_cases hki : k = i
          · have hli : l ≠ i := fun hli => hne (hli.trans hki.symm)
            exact .inr ⟨l, by simp [hli, hl], .inl rfl⟩
          · exact .inr ⟨k, by simp [hki, hk], .inl rfl⟩
      · exact .inl (Nat.succ_pos _)
  | ret i =>
      obtain ⟨hi, rfl⟩ := stopStep_ret h
      exact hs.update (by simp [hi]) rfl
  | other a =>
      obtain ⟨ha, h', hstep, rfl⟩ := stopStep_other h
      have hsame := step_joinable hstep ha
      rcases hs with hbad | ⟨k, hk, hjoined | hother⟩
      · exact .inl hbad
      · exact .inr ⟨k, hk, .inl (hsame.trans hjoined)⟩
      · exact .inr ⟨k, hk, .inr hother⟩

/-- **A test beside a caller that is about to join is fatal.** -/
theorem fatal_of_test {a : StopAction Θ ι} (h : stopStep x L s a = some t)
    (hC : ¬ TestsAlone s a) : Fatal t := by
  simp only [TestsAlone, not_forall, not_not] at hC
  obtain ⟨i, rfl, j, hj⟩ := hC
  obtain ⟨hi, rfl⟩ := stopStep_testJoinable h
  have hne : j ≠ i := by
    rintro rfl
    rw [hi] at hj
    cases hj
  refine .inr ⟨j, by simp [hne, hj], ?_⟩
  cases hjoinable : joinable s.handler.rx with
  | false => exact .inl rfl
  | true => exact .inr ⟨i, Ne.symm hne, by simp⟩

/-! ## Every interleaving -/

/-- **`stop()` from several threads is safe exactly when they test
`joinable()` one at a time**: it is safe if no call tests while another
one is about to join, and once all calls are over it has been safe only
if none did. -/
theorem stop_safe_iff (x : Umem.Libxdp) (L : Spsc.TriviallyCopyable FeedEvent ι α)
    (h : State ι α) (hstarted : joinable h.rx = true) (as : List (StopAction Θ ι))
    (s : Stopping Θ ι α) (hrun : run (stopStep x L) (Stopping.init h) as = some s) :
    (Meets (stopStep x L) TestsAlone (Stopping.init h) as → s.Safe) ∧
      ((∀ i, s.caller i = .outside) →
        (s.Safe ↔ Meets (stopStep x L) TestsAlone (Stopping.init h) as)) := by
  have hearly : s.earlyReturns = 0 :=
    (run_invariant (I := Awaited) (fun _ _ _ hs ht => hs.step ht)
      (awaited_init hstarted) hrun).returns
  have hsafe : Meets (stopStep x L) TestsAlone (Stopping.init h) as → s.Safe := by
    intro hmeets
    have hone : OneJoiner s :=
      run_invariant_where (I := OneJoiner) (C := TestsAlone)
        (fun _ _ _ hs hC ht => hs.step hC ht) (oneJoiner_init h) hmeets hrun
    exact ⟨hone.joins, hearly⟩
  refine ⟨hsafe, fun hover => ⟨fun hs => ?_, hsafe⟩⟩
  apply meets_of_not_fatal (D := Fatal) (fun _ _ _ ht hC => fatal_of_test ht hC)
    (fun _ _ _ hs ht => hs.step ht) hrun
  rintro (hbad | ⟨i, hi, -⟩)
  · rw [hs.1] at hbad
    exact Nat.lt_irrefl 0 hbad
  · rw [hover i] at hi
    cases hi

/-- A control thread and a second one, one call after the other. -/
def oneAfterTheOther : List (StopAction Bool Unit) :=
  [.setFlag true, .testJoinable true, .setFlag false, .other .exit, .join true,
    .testJoinable false, .ret true, .ret false]

theorem stop_safe_iff_oneAfterTheOther :
    ∃ s, run (stopStep .byFree oneWord) (Stopping.init primed) oneAfterTheOther = some s ∧
      (s.Safe ↔ Meets (stopStep .byFree oneWord) TestsAlone (Stopping.init primed)
        oneAfterTheOther) := by
  refine ⟨_, rfl, (stop_safe_iff .byFree oneWord primed rfl oneAfterTheOther _ rfl).2 ?_⟩
  decide

/-- Both test before either has joined. -/
def bothTest : List (StopAction Bool Unit) :=
  [.setFlag true, .testJoinable true, .setFlag false, .testJoinable false, .other .exit,
    .join true, .ret true, .join false]

/-- The second join comes to a thread object that has been joined. -/
theorem bothTest_joins_twice :
    run (step .byFree oneWord) (init (fun _ _ => {}) fun _ => 0)
        [.start, .populate, .populateSubmit] = some primed ∧
      ∃ s, run (stopStep .byFree oneWord) (Stopping.init primed) bothTest = some s ∧
        s.badJoins = 1 :=
  ⟨run_primed, _, rfl, rfl⟩

end UltrafastFeed.Handler
