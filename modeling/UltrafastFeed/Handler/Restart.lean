import UltrafastFeed.Handler.Frames

/-!
# FeedHandler — `stop()` and `start()` again

`start()` calls `populate_fill_ring` every time, and that call writes the
offsets of the frames `0 .. n-1` without looking where these frames are.
Whether a restart duplicates them is decided by one number, the free
slots of the fill ring at the moment of the call: fewer than `n`, and
libxdp refuses the whole request; `n` or more, and every frame of
`0 .. n-1` that is still with the kernel or in the RX ring is there
twice.
-/

namespace UltrafastFeed.Handler

open Lib Lib.Run Umem

variable {ι α : Type} [Fintype ι] [DecidableEq ι]
variable {x : Libxdp} {L : Spsc.TriviallyCopyable FeedEvent ι α} {s s' v : State ι α}

/-! ## Counts between the calls -/

/-- Away from the two submits no frame's count changes. -/
theorem step_occ_eq {a : Action ι} (h : step x L s a = some s') (hpop : a ≠ .populateSubmit)
    (hrel : a ≠ .releaseSubmit) (i : Nat) :
    s'.frames.occ umemConfig i = s.frames.occ umemConfig i := by
  have hmove : ∀ {f : Umem.State} {c : Umem.Action},
      Umem.step x umemConfig s.frames c = some f → c ≠ .populateSubmit →
      c ≠ .rxReleaseSubmit → f.occ umemConfig i = s.frames.occ umemConfig i := by
    intro f c hf hp hr
    have hsum := step_conserves hf hp i
    rw [(step_frame hf).lost hr] at hsum
    exact Nat.add_right_cancel hsum
  cases step_moves h with
  | populateSubmit => exact absurd rfl hpop
  | releaseSubmit => exact absurd rfl hrel
  | populate hrx hf => exact hmove hf nofun nofun
  | burst hrx hf => exact hmove hf nofun nofun
  | burstDone hrx hf => exact hmove hf nofun nofun
  | release hrx hf => exact hmove hf nofun nofun
  | kernel hk hf =>
      obtain ⟨-, -, hp, hr⟩ := kernel_frame hk hf
      exact hmove hf hp hr
  | start | stop | join | exit | polled | stamp | nextFrame | readByte | skip | push
  | pushRefused | pushRoom | pushWord | pushStore | drop | kernelWrite | consumer => rfl

/-- While `start()` has reserved its slots and not submitted them, only
the other parties move. -/
theorem priming_step {a : Action ι} (hrx : s.rx = .priming) (ha : a ≠ .populateSubmit)
    (h : step x L s a = some s') :
    s'.rx = .priming ∧ s'.frames.user = s.frames.user ∧
      ∀ i, s'.frames.occ umemConfig i = s.frames.occ umemConfig i := by
  have hocc : a ≠ .releaseSubmit → ∀ i,
      s'.frames.occ umemConfig i = s.frames.occ umemConfig i :=
    fun hrel i => step_occ_eq h ha hrel i
  cases step_moves h with
  | populateSubmit => exact absurd rfl ha
  | stop => exact ⟨hrx, rfl, hocc nofun⟩
  | kernel hk hf => exact ⟨hrx, (kernel_frame hk hf).1, hocc nofun⟩
  | kernelWrite => exact ⟨hrx, rfl, hocc nofun⟩
  | consumer => exact ⟨hrx, rfl, hocc nofun⟩
  | start h' | populate h' | join h' | exit h' | burst h' | burstDone h' | polled h' | stamp h'
  | nextFrame h' | release h' | readByte h' | skip h' | push h' | pushRefused h'
  | pushRoom h' | pushWord h' | pushStore h' | drop h' | releaseSubmit h' =>
      rw [hrx] at h'
      cases h'

theorem priming_run {as : List (Action ι)} (hrx : s.rx = .priming)
    (has : ∀ a ∈ as, a ≠ .populateSubmit) (h : run (step x L) s as = some s') :
    s'.frames.user = s.frames.user ∧
      ∀ i, s'.frames.occ umemConfig i = s.frames.occ umemConfig i := by
  have hmeets : Meets (step x L) (fun _ a => a ≠ .populateSubmit) s as := meets_of_labels has
  have hinv := run_invariant_where
    (I := fun t : State ι α => t.rx = .priming ∧ t.frames.user = s.frames.user ∧
      ∀ i, t.frames.occ umemConfig i = s.frames.occ umemConfig i)
    (fun u a t hu ha ht => by
      obtain ⟨hrx', huser, hocc⟩ := priming_step hu.1 ha ht
      exact ⟨hrx', huser.trans hu.2.1, fun i => (hocc i).trans (hu.2.2 i)⟩)
    ⟨hrx, rfl, fun _ => rfl⟩ hmeets h
  exact hinv.2

/-- One `populate_fill_ring` inside `start()`: the frames it adds are
settled by the reserve at its beginning. -/
theorem populate_occ {bs : List (Action ι)} (hbs : ∀ a ∈ bs, a ≠ .populateSubmit)
    (h : run (step x L) s (.populate :: (bs ++ [.populateSubmit])) = some v) (i : Nat) :
    v.frames.occ umemConfig i = s.frames.occ umemConfig i
      + umemConfig.count i (umemConfig.entries (x.reserve s.frames.fill umemConfig.preload)) := by
  obtain ⟨s₁, h₁, h⟩ := run_cons.mp h
  obtain ⟨s₂, h₂, h₃⟩ := run_append.mp h
  obtain ⟨v', h₃, hv⟩ := run_cons.mp h₃
  cases hv
  have hocc₁ := step_occ_eq h₁ nofun nofun i
  cases step_moves h₁ with
  | populate hrx hf =>
      obtain ⟨huser, hocc₂⟩ := priming_run rfl hbs h₂
      cases step_moves h₃ with
      | populateSubmit hrx' hf' =>
          obtain ⟨r, hu, hocc₃⟩ := populateSubmit_occ hf'
          obtain ⟨-, rfl⟩ := step_populate hf
          rw [huser] at hu
          cases hu
          rw [hocc₃, hocc₂ i, hocc₁]

/-! ## The restart -/

/-- A `stop()` and a `start()` up to its call of `populate_fill_ring`:
`as` happens before, `bs` until the RX thread is joined, `cs` while the
handler is stopped, `ds` once `start()` has been entered. -/
def stopStart (as bs cs ds : List (Action ι)) : List (Action ι) :=
  as ++ .stop :: (bs ++ .join :: (cs ++ .start :: ds))

/-- The condition, on the state in which `start()` calls
`populate_fill_ring`: there is no room for the pre-load, or none of the
pre-loaded frames is in circulation. -/
def RestartSafe (s : State ι α) : Prop :=
  s.frames.fill.free < umemConfig.preload ∨
    ∀ i, i < umemConfig.preload → s.frames.occ umemConfig i = 0

theorem restart_once_iff (hx : x.ByFree) {bs : List (Action ι)}
    (hI : AtMostOnce umemConfig s.frames) (hbs : ∀ a ∈ bs, a ≠ .populateSubmit)
    (h : run (step x L) s (.populate :: (bs ++ [.populateSubmit])) = some v) :
    AtMostOnce umemConfig v.frames ↔ RestartSafe s := by
  have hcount : ∀ i, umemConfig.count i (umemConfig.entries umemConfig.preload)
      = if i < umemConfig.preload then 1 else 0 :=
    count_entries (offsetsFit.mono (preload_le umemConfig))
  have hocc := populate_occ hbs h
  by_cases hroom : umemConfig.preload ≤ s.frames.fill.free
  · rw [hx, if_pos hroom] at hocc
    constructor
    · intro hv
      refine .inr fun i hi => ?_
      have hone : v.frames.occ umemConfig i ≤ 1 := hv i
      rw [hocc, hcount, if_pos hi] at hone
      omega
    · rintro (hfull | hnone)
      · omega
      · intro i
        rw [hocc, hcount]
        by_cases hi : i < umemConfig.preload
        · rw [hnone i hi, if_pos hi]
        · rw [if_neg hi]
          exact hI i
  · rw [hx, if_neg hroom] at hocc
    constructor
    · intro _
      exact .inl (by omega)
    · intro _ i
      rw [hocc]
      exact hI i

/-- **When a restart keeps frames unique.** From any state in which each
frame occurs at most once, through any `stop()` and `start()` and any steps
of the other parties before, between and after: each frame occurs at most
once from the return of `start()` on, if and only if `populate_fill_ring`
found no room for its pre-load or none of the pre-loaded frames in
circulation. -/
theorem restart_unique_iff (x : Libxdp) (hx : x.ByFree)
    (L : Spsc.TriviallyCopyable FeedEvent ι α) (s₀ s v : State ι α)
    (as bs cs ds es : List (Action ι))
    (honce : AtMostOnce umemConfig s₀.frames)
    (hno : ∀ a ∈ as ++ bs ++ cs ++ ds ++ es, a ≠ .populateSubmit)
    (hstop : run (step x L) s₀ (stopStart as bs cs ds) = some s)
    (hstart : run (step x L) s (.populate :: (es ++ [.populateSubmit])) = some v) :
    (∀ fs w, (∀ a ∈ fs, a ≠ .populateSubmit) → run (step x L) v fs = some w →
        AtMostOnce umemConfig w.frames) ↔ RestartSafe s := by
  have hlabels : ∀ a ∈ stopStart as bs cs ds, a ≠ .populateSubmit := by
    intro a ha
    simp only [stopStart, List.mem_append, List.mem_cons] at ha
    rcases ha with ha | rfl | ha | rfl | ha | rfl | ha
    · exact hno a (by simp [ha])
    · nofun
    · exact hno a (by simp [ha])
    · nofun
    · exact hno a (by simp [ha])
    · nofun
    · exact hno a (by simp [ha])
  have hI : AtMostOnce umemConfig s.frames := run_atMostOnce honce hlabels hstop
  rw [← restart_once_iff hx hI (fun a ha => hno a (by simp [ha])) hstart]
  constructor
  · intro h
    exact h [] v nofun rfl
  · intro hv fs w hfs hw
    exact run_atMostOnce hv hfs hw

/-! ## A restart without and with traffic -/

/-- The frames after an undisturbed `populate_fill_ring`. -/
def topUp (x : Libxdp) (f : Umem.State) : Umem.State :=
  { f with
    fill := { f.fill with
      queue := f.fill.queue ++ umemConfig.entries (x.reserve f.fill umemConfig.preload) } }

theorem topUp_occ (x : Libxdp) (f : Umem.State) (i : Nat) :
    (topUp x f).occ umemConfig i = f.occ umemConfig i
      + umemConfig.count i (umemConfig.entries (x.reserve f.fill umemConfig.preload)) := by
  simp only [State.occ, topUp, count_append]
  omega

theorem run_topUp (hrx : s.rx = .starting) (hu : s.frames.user = .idle) :
    run (step x L) s [.populate, .populateSubmit]
      = some { s with frames := topUp x s.frames, rx := .top } := by
  simp [run, step, State.onFrames, Umem.step, topUp, hrx, hu]

/-- The handler after its first `start()`. -/
def primed : State Unit FeedEvent :=
  { init (fun _ _ => {}) (fun _ => 0) with
    frames := topUp .byFree (Umem.init umemConfig)
    rx := .top }

theorem run_primed :
    run (step .byFree oneWord) (init (fun _ _ => {}) fun _ => 0)
      [.start, .populate, .populateSubmit] = some primed :=
  run_cons.mpr ⟨_, rfl, run_topUp rfl rfl⟩

theorem primed_once : AtMostOnce umemConfig primed.frames :=
  (firstStart_run (by simp) run_primed).once

/-- An idle restart: the kernel took nothing, the ring is still full. -/
theorem restart_unique_iff_idle :
    ∃ s v, run (step .byFree oneWord) primed (stopStart [] [.exit] [] []) = some s ∧
      run (step .byFree oneWord) s [.populate, .populateSubmit] = some v ∧
      AtMostOnce umemConfig v.frames := by
  refine ⟨_, _, rfl, rfl, ?_⟩
  exact (restart_unique_iff .byFree Libxdp.byFree_spec oneWord primed _ _ [] [.exit] [] [] []
    primed_once (by simp) rfl rfl).mpr (.inl (by decide +kernel)) [] _ (by simp) rfl

/-- The kernel takes the whole fill ring. -/
theorem run_kernelTakes (q : List UInt64) (hq : s.frames.fill.queue = q) :
    run (step x L) s (List.replicate q.length (.kernel .kernelTake))
      = some { s with
          frames := { s.frames with
            fill := { s.frames.fill with
              queue := []
              unpublished := s.frames.fill.unpublished + q.length }
            kernel := s.frames.kernel ++ q } } := by
  induction q generalizing s with
  | nil =>
      rw [List.length_nil, List.replicate_zero, run_nil, Nat.add_zero, List.append_nil, ← hq]
  | cons a q ih =>
      rw [List.length_cons, List.replicate_succ, run]
      simp only [step, isKernel, if_true, State.onFrames, Umem.step, hq, Option.map_some,
        Option.bind_some]
      rw [ih rfl]
      simp only [List.append_assoc, List.singleton_append, Nat.add_assoc, Nat.add_comm 1]

/-- The kernel takes every entry of the fill ring and publishes it. -/
def drain (r : FillRing) : List (Action ι) :=
  List.replicate r.queue.length (.kernel .kernelTake)
    ++ [.kernel (.kernelPublish (r.unpublished + r.queue.length))]

def drained (f : Umem.State) : Umem.State :=
  { f with
    fill := { f.fill with queue := [], unpublished := 0 }
    kernel := f.kernel ++ f.fill.queue }

theorem drained_occ (f : Umem.State) (i : Nat) :
    (drained f).occ umemConfig i = f.occ umemConfig i := by
  simp only [State.occ, drained, count_append, count_nil]
  omega

theorem run_drain (s : State ι α) :
    run (step x L) s (drain s.frames.fill) = some { s with frames := drained s.frames } := by
  refine run_append.mpr ⟨_, run_kernelTakes _ rfl, ?_⟩
  simp [run, step, isKernel, State.onFrames, Umem.step, drained]

/-- Stopped at the top of its loop, with the kernel draining the ring
before the handler is started again. -/
theorem run_stopDrained (hrx : s.rx = .top) :
    run (step x L) s (stopStart [] [.exit] (drain s.frames.fill) [])
      = some { s with stopFlag := false, rx := .starting, frames := drained s.frames } := by
  have hjoin : run (step x L) s [.stop, .exit, .join]
      = some { s with stopFlag := true, rx := .down } := by
    simp [run, step, hrx]
  have hsteps : stopStart [] [.exit] (drain s.frames.fill) [] =
      ([.stop, .exit, .join] ++ (drain s.frames.fill ++ [.start]) : List (Action ι)) := by
    simp [stopStart]
  rw [hsteps]
  exact run_append.mpr ⟨_, hjoin, run_append.mpr ⟨_, run_drain _, rfl⟩⟩

theorem primed_occ_zero : primed.frames.occ umemConfig 0 = 1 := by
  have hgrant : Libxdp.byFree.reserve (Umem.init umemConfig).fill umemConfig.preload
      = umemConfig.preload := by
    rw [Libxdp.byFree_spec, if_pos (by decide)]
  rw [primed, topUp_occ, occ_init, hgrant,
    count_entries (offsetsFit.mono (preload_le umemConfig)), if_pos (by decide)]

/-- `primed` after a `stop()`, with the ring drained, inside `start()`. -/
def restarting : State Unit FeedEvent :=
  { primed with stopFlag := false, rx := .starting, frames := drained primed.frames }

theorem restarting_not_safe : ¬ RestartSafe restarting := by
  have hzero : restarting.frames.occ umemConfig 0 = 1 := by
    rw [restarting, drained_occ, primed_occ_zero]
  rintro (hfull | hnone)
  · exact absurd hfull (by decide)
  · rw [hnone 0 (by decide)] at hzero
    cases hzero

/-- Stopped, the kernel takes the pre-loaded frames, as it does when
packets arrive; the next `start()` puts every one of them into the fill
ring a second time. -/
theorem restart_duplicates :
    ∃ v, run (step .byFree oneWord) (init (fun _ _ => {}) fun _ => 0)
        [.start, .populate, .populateSubmit] = some primed ∧
      AtMostOnce umemConfig primed.frames ∧
      run (step .byFree oneWord) primed
        (stopStart [] [.exit] (drain primed.frames.fill) []) = some restarting ∧
      run (step .byFree oneWord) restarting [.populate, .populateSubmit] = some v ∧
      ¬ AtMostOnce umemConfig v.frames := by
  have hstop : run (step .byFree oneWord) primed
      (stopStart [] [.exit] (drain primed.frames.fill) []) = some restarting :=
    run_stopDrained rfl
  have honce : AtMostOnce umemConfig restarting.frames := fun i => by
    rw [restarting, drained_occ]
    exact primed_once i
  have hstart := @run_topUp Unit FeedEvent _ _ .byFree oneWord restarting rfl rfl
  refine ⟨_, run_primed, primed_once, hstop, hstart, fun hv => ?_⟩
  exact restarting_not_safe
    ((restart_once_iff Libxdp.byFree_spec honce (List.forall_mem_nil _) hstart).mp hv)

end UltrafastFeed.Handler
