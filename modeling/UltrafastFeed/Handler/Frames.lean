import UltrafastFeed.Handler.Steps
import UltrafastFeed.Lib.Run
import UltrafastFeed.Umem.RxTx

/-!
# FeedHandler — who holds a frame

The handler's steps seen through the frames. A step is a step of `Umem`
or leaves the frames alone, and only the submit of `start()`'s
`populate_fill_ring` puts new frames into circulation. So from the first
`start()` on every frame occurs at most once, and a frame of the batch
under the parser is neither in the fill ring nor with the kernel.

A second `start()` primes the ring AGAIN with the frames `0 .. n-1`,
wherever these are by now. Its reserve is refused as long as one slot of
the ring is taken; once the kernel has drained the ring, which it does
while nobody releases frames, it is granted.
-/

namespace UltrafastFeed.Handler

open Lib Lib.Run Umem

variable {ι α : Type} [Fintype ι] [DecidableEq ι]
variable {x : Libxdp} {L : Spsc.TriviallyCopyable FeedEvent ι α} {s s' : State ι α}

/-! ## The frames of a step -/

/-- A step that is not the submit of `populate_fill_ring` is such a step
of `Umem`, or it leaves the frames alone. -/
theorem step_frames {a : Action ι} (h : step x L s a = some s') (ha : a ≠ .populateSubmit) :
    s'.frames = s.frames ∨
      ∃ b, Umem.step x umemConfig s.frames b = some s'.frames ∧ b ≠ .populateSubmit := by
  cases step_moves h with
  | populateSubmit => exact absurd rfl ha
  | populate _ hf | burst _ hf | burstDone _ hf | release _ hf | releaseSubmit _ hf =>
      exact .inr ⟨_, hf, nofun⟩
  | kernel hk hf => exact .inr ⟨_, hf, (kernel_frame hk hf).2.2.1⟩
  | start | stop | join | exit | polled | stamp | nextFrame | readByte | skip | push
  | pushRefused | pushRoom | pushWord | pushStore | drop | kernelWrite | consumer => exact .inl rfl

theorem step_atMostOnce {a : Action ι} (hI : AtMostOnce umemConfig s.frames)
    (ha : a ≠ .populateSubmit) (h : step x L s a = some s') :
    AtMostOnce umemConfig s'.frames := by
  rcases step_frames h ha with heq | ⟨b, hf, hb⟩
  · rw [heq]
    exact hI
  · exact hI.step hf hb

theorem run_atMostOnce {as : List (Action ι)} (hI : AtMostOnce umemConfig s.frames)
    (has : ∀ a ∈ as, a ≠ .populateSubmit) (h : run (step x L) s as = some s') :
    AtMostOnce umemConfig s'.frames := by
  have hmeets : Meets (step x L) (fun _ a => a ≠ .populateSubmit) s as := meets_of_labels has
  refine run_invariant_where (I := fun t : State ι α => AtMostOnce umemConfig t.frames)
    ?_ hI hmeets h
  intro u a t hu ha ht
  exact step_atMostOnce hu ha ht

theorem offsetsFit : umemConfig.OffsetsFit umemConfig.frameCount.toNat := by
  refine ⟨by decide, fun i hi => ?_⟩
  have hcount : i < 4096 := hi
  show i * 4096 < 2 ^ 64
  omega

theorem rxBelow_reachable {b : Nat → ι → α} {mem : Nat → UInt8}
    (h : Reachable (step x L) (init b mem) s) :
    RxBelow umemConfig umemConfig.preload s.frames := by
  refine h.invariant (I := fun t => RxBelow umemConfig umemConfig.preload t.frames) ?_
    (rxBelow_init _ _)
  intro u a t hI ht
  have hfit := offsetsFit.mono (preload_le umemConfig)
  by_cases ha : a = .populateSubmit
  · subst ha
    cases step_moves ht with
    | populateSubmit hrx hf => exact hI.step hfit hf
  · rcases step_frames ht ha with heq | ⟨b, hf, -⟩
    · rw [heq]
      exact hI
    · exact hI.step hfit hf

/-! ## The RX thread and the frames -/

/-- What the application holds, by where the RX thread is. -/
def Coupled (s : State ι α) : Prop :=
  match s.rx with
  | .down | .starting | .top | .polling | .exited =>
      s.frames.user = .idle ∧ s.frames.held = []
  | .priming | .bursting | .releasing => s.frames.held = []
  | .received => s.frames.user = .idle
  | .handling _ rest => s.frames.user = .idle ∧ rest ⊆ s.frames.held
  | .parsing p rest => s.frames.user = .idle ∧ p.desc :: rest ⊆ s.frames.held
  | .pushing p rest => s.frames.user = .idle ∧ p.desc :: rest ⊆ s.frames.held
  | .refused _ rest => s.frames.user = .idle ∧ rest ⊆ s.frames.held

omit [Fintype ι] [DecidableEq ι] in
/-- The coupling reads the frames through `user` and `held` only. -/
theorem Coupled.congr (hI : Coupled s) (hrx : s'.rx = s.rx)
    (hu : s'.frames.user = s.frames.user) (hh : s'.frames.held = s.frames.held) :
    Coupled s' := by
  rw [Coupled, hrx, hu, hh]
  exact hI

theorem Coupled.step {a : Action ι} (hI : Coupled s) (h : step x L s a = some s') :
    Coupled s' := by
  cases step_moves h with
  | start hrx | join hrx | exit hrx _ | polled hrx | nextFrame hrx | readByte hrx _
  | push hrx _ _ | pushRoom hrx _ _ | pushWord hrx _ | drop hrx =>
      rw [Coupled, hrx] at hI
      exact hI
  | skip hrx _ | pushRefused hrx _ _ | pushStore hrx _ =>
      -- the frame under the parser leaves the loop, the rest is still held
      rw [Coupled, hrx] at hI
      exact ⟨hI.1, (List.cons_subset.mp hI.2).2⟩
  | populate hrx hf =>
      rw [Coupled, hrx] at hI
      obtain ⟨-, rfl⟩ := step_populate hf
      exact hI.2
  | populateSubmit hrx hf =>
      rw [Coupled, hrx] at hI
      obtain ⟨r, -, rfl⟩ := step_populateSubmit hf
      exact ⟨rfl, hI⟩
  | burst hrx hf =>
      rw [Coupled, hrx] at hI
      obtain ⟨-, -, -, rfl⟩ := step_rxBurst hf
      exact hI.2
  | burstDone hrx hf =>
      obtain ⟨k, -, rfl⟩ := step_rxBurstRelease hf
      rw [Coupled]
      dsimp only
      by_cases hheld : s.frames.held ++ s.frames.rx.take k = []
      · rw [if_pos hheld]
        exact ⟨rfl, hheld⟩
      · rw [if_neg hheld]
  | stamp hrx =>
      rw [Coupled, hrx] at hI
      exact ⟨hI, List.Subset.refl _⟩
  | release hrx hf =>
      rw [Coupled, hrx] at hI
      obtain ⟨-, -, ⟨hnil, rfl⟩ | ⟨-, rfl⟩⟩ := step_rxRelease hf
      · exact hnil
      · rfl
  | releaseSubmit hrx hf =>
      rw [Coupled, hrx] at hI
      obtain ⟨ds, r, -, rfl⟩ := step_rxReleaseSubmit hf
      exact ⟨rfl, hI⟩
  | kernel hk hf =>
      obtain ⟨hu, hh, -⟩ := kernel_frame hk hf
      exact hI.congr rfl hu hh
  | stop | kernelWrite | consumer => exact hI.congr rfl rfl rfl

theorem coupled_reachable {b : Nat → ι → α} {mem : Nat → UInt8}
    (h : Reachable (step x L) (init b mem) s) : Coupled s :=
  h.invariant (fun _ _ _ hI hs => hI.step hs) ⟨rfl, rfl⟩

/-! ## From the first `start()` on -/

/-- Until the first priming nothing circulates. -/
structure FirstStart (s : State ι α) : Prop where
  once : AtMostOnce umemConfig s.frames
  fresh : s.rx = .starting ∨ s.rx = .priming → ∀ i, s.frames.occ umemConfig i = 0

/-- `start()` is the only way into its own first half. -/
theorem starting_of_step {a : Action ι} (h : step x L s a = some s') (ha : a ≠ .start)
    (hrx' : s'.rx = .starting ∨ s'.rx = .priming) : s.rx = .starting ∨ s.rx = .priming := by
  cases step_moves h with
  | start => exact absurd rfl ha
  | populate hrx hf => exact .inl hrx
  | populateSubmit hrx hf => exact .inr hrx
  | stop | kernel | kernelWrite | consumer => exact hrx'
  | @burstDone f hrx hf =>
      dsimp only at hrx'
      by_cases hheld : f.held = []
      · rw [if_pos hheld] at hrx'
        rcases hrx' with h' | h' <;> cases h'
      · rw [if_neg hheld] at hrx'
        rcases hrx' with h' | h' <;> cases h'
  | join | exit | burst | polled | stamp | nextFrame | release | readByte | skip | push
  | pushRefused | pushRoom | pushWord | pushStore | drop | releaseSubmit =>
      rcases hrx' with h' | h' <;> cases h'

theorem FirstStart.step {a : Action ι} (hI : FirstStart s)
    (hbelow : RxBelow umemConfig umemConfig.preload s.frames) (ha : a ≠ .start)
    (h : step x L s a = some s') : FirstStart s' := by
  by_cases hsub : a = .populateSubmit
  · subst hsub
    cases step_moves h with
    | populateSubmit hrx hf =>
        obtain ⟨r, hu, hocc⟩ := populateSubmit_occ hf
        have hr : r ≤ umemConfig.preload := hbelow.reserved r hu
        refine ⟨fun i => ?_, fun h' => by rcases h' with h' | h' <;> cases h'⟩
        rw [hocc, hI.fresh (.inr hrx) i,
          count_entries (offsetsFit.mono (Nat.le_trans hr (preload_le umemConfig)))]
        by_cases hi : i < r
        · rw [if_pos hi]
        · rw [if_neg hi]
          omega
  · refine ⟨step_atMostOnce hI.once hsub h, fun hrx' i => ?_⟩
    have hzero := hI.fresh (starting_of_step h ha hrx') i
    rcases step_frames h hsub with heq | ⟨b, hf, hb⟩
    · rw [heq]
      exact hzero
    · have hle := step_occ_le hf hb i
      omega

theorem firstStart_run {b : Nat → ι → α} {mem : Nat → UInt8} {as : List (Action ι)}
    (has : ∀ a ∈ as, a ≠ .start) (hrun : run (step x L) (init b mem) (.start :: as) = some s) :
    FirstStart s := by
  obtain ⟨s₁, hstart, hrun⟩ := run_cons.mp hrun
  have hreach : Reachable (step x L) (init b mem) s₁ := (Reachable.refl _).trans_step hstart
  have hfirst : FirstStart s₁ := by
    cases hstart
    exact ⟨fun i => Nat.le_trans (Nat.le_of_eq (occ_init umemConfig i)) (Nat.zero_le 1),
      fun _ i => occ_init umemConfig i⟩
  have hmeets : Meets (step x L) (fun _ a => a ≠ .start) s₁ as := meets_of_labels has
  have hboth := run_invariant_where
    (I := fun t => FirstStart t ∧ Reachable (step x L) (init b mem) t)
    (fun _ _ _ hI ha ht =>
      ⟨hI.1.step (rxBelow_reachable hI.2) ha ht, hI.2.trans_step ht⟩)
    ⟨hfirst, hreach⟩ hmeets hrun
  exact hboth.1

/-- A frame the application holds is nowhere else. -/
theorem held_elsewhere {f : Umem.State} (hI : AtMostOnce umemConfig f) {d : RxDesc}
    (hd : d ∈ f.held) :
    (∀ a ∈ f.fill.queue, umemConfig.frameOf a ≠ umemConfig.frameOf d.addr) ∧
      ∀ a ∈ f.kernel, umemConfig.frameOf a ≠ umemConfig.frameOf d.addr := by
  have hone : f.occ umemConfig (umemConfig.frameOf d.addr) ≤ 1 := hI _
  have hheld : 0 < umemConfig.countDescs (umemConfig.frameOf d.addr) f.held := countDescs_pos hd
  rw [State.occ] at hone
  constructor
  · intro a ha heq
    have hfill : 0 < umemConfig.count (umemConfig.frameOf a) f.fill.queue := count_pos ha
    rw [heq] at hfill
    omega
  · intro a ha heq
    have hkernel : 0 < umemConfig.count (umemConfig.frameOf a) f.kernel := count_pos ha
    rw [heq] at hkernel
    omega

/-- **No frame is reusable by the kernel while it is being parsed.** From
a single `start()` on a fresh handler, in every state that any
interleaving reaches: each frame occurs at most once; no frame of the
batch is in the fill ring or with the kernel, and the frame under the
parser is one of the batch; the kernel changes no byte of the batch; and
once the loop has exited, it holds no frame. -/
theorem no_reuse_while_parsing (x : Libxdp) (L : Spsc.TriviallyCopyable FeedEvent ι α)
    (b : Nat → ι → α) (mem : Nat → UInt8) (as : List (Action ι)) (s : State ι α)
    (has : ∀ a ∈ as, a ≠ .start)
    (hrun : run (step x L) (init b mem) (.start :: as) = some s) :
    (∀ i, s.frames.occ umemConfig i ≤ 1) ∧
      (∀ d ∈ s.frames.held,
        (∀ a ∈ s.frames.fill.queue, umemConfig.frameOf a ≠ umemConfig.frameOf d.addr) ∧
        ∀ a ∈ s.frames.kernel, umemConfig.frameOf a ≠ umemConfig.frameOf d.addr) ∧
      (∀ p rest, s.rx = .parsing p rest → p.desc :: rest ⊆ s.frames.held) ∧
      (∀ addr byte s', step x L s (.kernelWrite addr byte) = some s' →
        ∀ d ∈ s.frames.held, ∀ y, y / umemConfig.frameSize.toNat = umemConfig.frameOf d.addr →
          s'.mem y = s.mem y) ∧
      (s.rx = .exited → s.frames.held = [] ∧ s.frames.user = .idle) := by
  have honce : AtMostOnce umemConfig s.frames := (firstStart_run has hrun).once
  have hcoupled : Coupled s := coupled_reachable ⟨_, hrun⟩
  refine ⟨honce, fun d hd => held_elsewhere honce hd, ?_, ?_, ?_⟩
  · intro p rest hrx
    rw [Coupled, hrx] at hcoupled
    exact hcoupled.2
  · intro addr byte s' hs d hd y hy
    cases step_moves hs with
    | kernelWrite hk =>
        obtain ⟨a, ha, hfr⟩ := hk
        have hne : y ≠ addr := by
          rintro rfl
          exact (held_elsewhere honce hd).2 a ha (hfr.trans hy)
        exact if_neg hne
  · intro hrx
    rw [Coupled, hrx] at hcoupled
    exact ⟨hcoupled.2, hcoupled.1⟩

/-- One frame received, and two bytes of it read. -/
def firstFrame : List (Action Unit) :=
  [.populate, .populateSubmit, .kernel .kernelTake, .kernel (.kernelPost 0 ⟨256, 60, 0⟩),
    .burst 1, .burstDone, .stamp 7, .next, .readByte, .kernel .kernelTake]

theorem firstFrame_enabled :
    (run (step .byFree oneWord) (init (fun _ _ => {}) fun _ => 17)
      (.start :: firstFrame)).isSome := by
  decide +kernel

theorem no_reuse_while_parsing_firstFrame :
    ∃ s, run (step .byFree oneWord) (init (fun _ _ => {}) fun _ => 17)
        (.start :: firstFrame) = some s ∧
      s.frames.held = [⟨256, 60, 0⟩] ∧ s.frames.kernel = [4096] ∧
      ∀ d ∈ s.frames.held, ∀ a ∈ s.frames.kernel,
        umemConfig.frameOf a ≠ umemConfig.frameOf d.addr := by
  have hrun := (Option.some_get firstFrame_enabled).symm
  refine ⟨_, hrun, ?_, ?_, fun d hd =>
    ((no_reuse_while_parsing .byFree oneWord _ _ firstFrame _ (by simp [firstFrame])
      hrun).2.1 d hd).2⟩
  · clear hrun
    decide +kernel
  · clear hrun
    decide +kernel

end UltrafastFeed.Handler
