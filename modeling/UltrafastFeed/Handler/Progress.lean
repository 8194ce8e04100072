import Mathlib.Data.Fintype.Card
import UltrafastFeed.Handler.Accounting
import UltrafastFeed.Handler.Frames
import UltrafastFeed.Packet.Bounds
import UltrafastFeed.Spsc.WaitFree

/-!
# FeedHandler — the RX thread gets on

The inner loop dereferences `pkt.udp()` and `pkt.ip()` without a check,
several times per frame, and reads the frame's bytes anew each time. What
keeps these pointers from being null is that the bytes stand still: from
a single `start()` on, the kernel owns no frame of the batch. So the
parser never dereferences null, and nothing in the loop's body waits for
anybody but `poll`, after an empty burst. `bodyRank` counts the steps left
until the RX thread is back at the top of its loop, where it looks at
`stop_flag_`.

ENVIRONMENT. Beyond what `Umem.Model` assumes of the kernel, a posted
frame lies inside its UMEM frame (`InFrame`), and `poll` returns, which
its timeout of 1 ms is for (`Environment.pollReturns`). Without the second
the thread stays where it is (`polling_waits`).
-/

namespace UltrafastFeed.Handler

open Lib Lib.Run Lib.Progress Umem

variable {ι α : Type}

/-- The frame behind a descriptor ends inside its UMEM frame. -/
def InFrame (d : RxDesc) : Prop :=
  d.addr.toNat % umemConfig.frameSize.toNat + d.len.toNat ≤ umemConfig.frameSize.toNat

instance (d : RxDesc) : Decidable (InFrame d) :=
  inferInstanceAs (Decidable (_ ≤ _))

theorem InFrame.frameOf {d : RxDesc} (h : InFrame d) {x : Nat}
    (hx : (framePacket d.addr d.len).Frame x) :
    x / umemConfig.frameSize.toNat = umemConfig.frameOf d.addr := by
  obtain ⟨hlo, hhi⟩ : d.addr.toNat ≤ x ∧ x < d.addr.toNat + d.len.toNat := hx
  have hsize : umemConfig.frameSize.toNat = 4096 := rfl
  rw [InFrame, hsize] at h
  rw [UmemConfig.frameOf, hsize]
  omega

/-- The steps considered: no second `start()`, and the kernel posts frames
that lie inside their UMEM frames. -/
def Action.Tame : Action ι → Prop
  | .start => False
  | .kernel (.kernelPost _ d) => InFrame d
  | _ => True

/-- The steps of the RX thread. -/
def isRx : Action ι → Bool
  | .exit | .burst _ | .burstDone | .polled | .stamp _ | .next | .readByte | .parsed
  | .pushCheck _ | .pushWord _ | .pushStore | .drop | .releaseSubmit => true
  | _ => false

/-- Any step but the one from the top of the loop into its body. -/
def Action.StaysIn : Action ι → Prop
  | .burst _ => False
  | _ => True

/-- What is assumed of the rest of the system, as a condition on the
steps it takes: they are tame, the RX thread's own steps are not withheld
from it, and a call of `poll` returns. -/
structure Environment (C : State ι α → Action ι → Prop) : Prop where
  tame : ∀ s a, C s a → a.Tame
  runs : ∀ s a, isRx a = true → a ≠ .polled → C s a
  pollReturns : ∀ s, s.rx = .polling → C s .polled

theorem tame_of_isRx {a : Action ι} (h : isRx a = true) : a.Tame := by
  cases a with
  | start | kernel => cases h
  | _ => trivial

/-- The kernel is tame and nothing else is assumed: such an environment. -/
theorem environment_tame : Environment fun (_ : State ι α) a => a.Tame where
  tame _ _ ha := ha
  runs _ _ ha _ := tame_of_isRx ha
  pollReturns _ _ := trivial

/-! ## Nothing is missing -/

/-- What the application is inside of, by where the RX thread is, and how
much of the batch is left. -/
def Ready (s : State ι α) : Prop :=
  match s.rx with
  | .down | .starting | .priming | .top | .polling | .exited => True
  | .bursting => ∃ rcvd, s.frames.user = .bursting rcvd ∧ rcvd ≤ kMaxBatch
  | .received => s.frames.held ≠ [] ∧ s.frames.held.length ≤ kMaxBatch
  | .handling _ rest => s.frames.held ≠ [] ∧ rest.length ≤ kMaxBatch
  | .parsing _ rest => s.frames.held ≠ [] ∧ rest.length < kMaxBatch
  | .pushing _ rest => s.frames.held ≠ [] ∧ rest.length < kMaxBatch
  | .refused _ rest => s.frames.held ≠ [] ∧ rest.length < kMaxBatch
  | .releasing => ∃ ds r, s.frames.user = .releasing ds r

theorem Ready.congr {s s' : State ι α} (hI : Ready s) (hrx : s'.rx = s.rx)
    (hu : s'.frames.user = s.frames.user) (hh : s'.frames.held = s.frames.held) : Ready s' := by
  rw [Ready, hrx, hu, hh]
  exact hI

theorem PushAt.busy {prod : Spsc.Producer FeedEvent ι} {p : Parse} {rest : List RxDesc}
    (h : PushAt prod (.pushing p rest)) : prod ≠ .idle := by
  rintro rfl
  obtain ⟨ev, -, ⟨t, heq⟩ | ⟨t, todo, heq⟩⟩ := h
  · cases heq
  · cases heq

variable [Fintype ι] [DecidableEq ι]
variable {x : Libxdp} {L : Spsc.TriviallyCopyable FeedEvent ι α} {s s' : State ι α}

theorem Ready.step {a : Action ι} (hI : Ready s) (hc : Coupled s) (h : step x L s a = some s') :
    Ready s' := by
  cases step_moves h with
  | start | join | exit | populate | populateSubmit | polled | releaseSubmit => trivial
  | stop | kernelWrite | consumer => exact hI.congr rfl rfl rfl
  | kernel hk hf =>
      obtain ⟨hu, hh, -⟩ := kernel_frame hk hf
      exact hI.congr rfl hu hh
  | burst hrx hf =>
      obtain ⟨-, hle, -, rfl⟩ := step_rxBurst hf
      exact ⟨_, rfl, hle⟩
  | burstDone hrx hf =>
      rw [Ready, hrx] at hI
      rw [Coupled, hrx] at hc
      obtain ⟨rcvd, hu, rfl⟩ := step_rxBurstRelease hf
      obtain ⟨rcvd', hu', hle⟩ := hI
      rw [hu] at hu'
      cases hu'
      rw [Ready]
      dsimp only
      by_cases hheld : s.frames.held ++ s.frames.rx.take rcvd = []
      · rw [if_pos hheld]
        trivial
      · rw [if_neg hheld]
        refine ⟨hheld, ?_⟩
        rw [hc, List.nil_append, List.length_take]
        exact Nat.le_trans (Nat.min_le_left _ _) hle
  | stamp hrx | nextFrame hrx | readByte hrx _ | push hrx _ _ | pushRoom hrx _ _
  | pushWord hrx _ | pushRefused hrx _ _ =>
      rw [Ready, hrx] at hI
      exact hI
  | skip hrx _ | pushStore hrx _ | drop hrx =>
      rw [Ready, hrx] at hI
      exact ⟨hI.1, Nat.le_of_lt hI.2⟩
  | release hrx hf =>
      rw [Ready, hrx] at hI
      obtain ⟨-, -, ⟨hnil, -⟩ | ⟨-, rfl⟩⟩ := step_rxRelease hf
      · exact absurd hnil hI.1
      · exact ⟨_, _, rfl⟩

/-- A descriptor of the RX ring or of the batch was there before, or the
kernel has just posted it. -/
theorem step_descs {a : Action ι} (h : step x L s a = some s') {d : RxDesc}
    (hd : d ∈ s'.frames.rx ++ s'.frames.held) :
    d ∈ s.frames.rx ++ s.frames.held ∨ ∃ i, a = .kernel (.kernelPost i d) := by
  cases step_moves h with
  | start | stop | join | exit | polled | stamp | nextFrame | readByte | skip | push
  | pushRefused | pushRoom | pushWord | pushStore | drop | kernelWrite | consumer => exact .inl hd
  | populate hrx hf =>
      obtain ⟨-, rfl⟩ := step_populate hf
      exact .inl hd
  | populateSubmit hrx hf =>
      obtain ⟨r, -, rfl⟩ := step_populateSubmit hf
      exact .inl hd
  | burst hrx hf =>
      obtain ⟨-, -, -, rfl⟩ := step_rxBurst hf
      exact .inl hd
  | burstDone hrx hf =>
      obtain ⟨k, -, rfl⟩ := step_rxBurstRelease hf
      left
      rcases List.mem_append.mp hd with hd | hd
      · exact List.mem_append_left _ (List.mem_of_mem_drop hd)
      · rcases List.mem_append.mp hd with hd | hd
        · exact List.mem_append_right _ hd
        · exact List.mem_append_left _ (List.mem_of_mem_take hd)
  | release hrx hf =>
      obtain ⟨-, -, ⟨-, rfl⟩ | ⟨-, rfl⟩⟩ := step_rxRelease hf
      · exact .inl hd
      · rw [List.append_nil] at hd
        exact .inl (List.mem_append_left _ hd)
  | releaseSubmit hrx hf =>
      obtain ⟨ds, r, -, rfl⟩ := step_rxReleaseSubmit hf
      exact .inl hd
  | @kernel a f hk hf =>
      cases a with
      | kernelTake =>
          obtain ⟨_, _, -, rfl⟩ := step_kernelTake hf
          exact .inl hd
      | kernelPublish k =>
          obtain ⟨-, rfl⟩ := step_kernelPublish hf
          exact .inl hd
      | kernelPost i d' =>
          obtain ⟨_, -, rfl⟩ := step_kernelPost hf
          dsimp only at hd
          rw [List.append_assoc] at hd
          rcases List.mem_append.mp hd with hd | hd
          · exact .inl (List.mem_append_left _ hd)
          · rcases List.mem_cons.mp hd with rfl | hd
            · exact .inr ⟨i, rfl⟩
            · exact .inl (List.mem_append_right _ hd)
      | _ => cases hk

/-! ## The frame under the parser stands still -/

/-- What a run with a single `start()` and tame steps keeps. -/
structure Settled (x : Libxdp) (L : Spsc.TriviallyCopyable FeedEvent ι α) (s : State ι α) :
    Prop where
  reach : ∃ b mem, Reachable (step x L) (init b mem) s
  first : FirstStart s
  ready : Ready s
  posted : ∀ d ∈ s.frames.rx ++ s.frames.held, InFrame d
  still : ∀ p rest, s.rx = .parsing p rest → p.residue.Defined s.mem p.packet.Frame

theorem Settled.coupled (hI : Settled x L s) : Coupled s := by
  obtain ⟨b, mem, hreach⟩ := hI.reach
  exact coupled_reachable hreach

theorem Settled.accounted (hI : Settled x L s) : Accounted L s := by
  obtain ⟨b, mem, hreach⟩ := hI.reach
  exact accounted_reachable hreach

/-- The kernel writes to no byte of a frame of the batch. -/
theorem Settled.write_elsewhere (hI : Settled x L s) {addr : Nat} {byte : UInt8}
    (h : step x L s (.kernelWrite addr byte) = some s') {d : RxDesc} (hd : d ∈ s.frames.held)
    {y : Nat} (hy : (framePacket d.addr d.len).Frame y) : s'.mem y = s.mem y := by
  cases step_moves h with
  | kernelWrite hk =>
      obtain ⟨a, ha, hfr⟩ := hk
      have hin : InFrame d := hI.posted d (List.mem_append_right _ hd)
      have hne : y ≠ addr := by
        rintro rfl
        exact (held_elsewhere hI.first.once hd).2 a ha (hfr.trans (hin.frameOf hy))
      exact if_neg hne

theorem Settled.still_step {a : Action ι} (hI : Settled x L s) (h : step x L s a = some s')
    (p : Parse) (rest : List RxDesc) (hrx' : s'.rx = .parsing p rest) :
    p.residue.Defined s'.mem p.packet.Frame := by
  cases step_moves h with
  | start | populate | populateSubmit | join | exit | burst | polled | stamp | release | skip
  | push | pushRefused | pushRoom | pushWord | pushStore | drop | releaseSubmit => cases hrx'
  | @burstDone f hrx hf =>
      dsimp only at hrx'
      split at hrx' <;> cases hrx'
  | stop | kernel | consumer => exact hI.still p rest hrx'
  | nextFrame hrx =>
      cases hrx'
      exact buildEvent_defined _ _ _
  | @readByte p' rest' addr k hrx hp =>
      cases hrx'
      have hdef := hI.still p' rest hrx
      rw [hp] at hdef
      have hnext : Parse.residue { p' with seen := p'.seen ++ [s.mem addr] } = k (s.mem addr) :=
        Reads.feed_read (s.mem addr) hp
      rw [hnext]
      exact hdef (s.mem addr) fun _ => rfl
  | kernelWrite hk =>
      have hc := hI.coupled
      rw [Coupled, show s.rx = .parsing p rest from hrx'] at hc
      have hmem : p.desc ∈ s.frames.held := (List.cons_subset.mp hc.2).1
      exact (hI.still p rest hrx').congr fun y hy => hI.write_elsewhere h hmem hy

theorem settled_step {a : Action ι} (hI : Settled x L s) (ha : a.Tame)
    (h : step x L s a = some s') : Settled x L s' where
  reach := by
    obtain ⟨b, mem, hreach⟩ := hI.reach
    exact ⟨b, mem, hreach.trans_step h⟩
  first := by
    obtain ⟨b, mem, hreach⟩ := hI.reach
    refine hI.first.step (rxBelow_reachable hreach) ?_ h
    rintro rfl
    exact ha
  ready := hI.ready.step hI.coupled h
  posted := by
    intro d hd
    rcases step_descs h hd with hd | ⟨i, rfl⟩
    · exact hI.posted d hd
    · exact ha
  still := hI.still_step h

theorem settled_run {b : Nat → ι → α} {mem : Nat → UInt8} {as : List (Action ι)}
    (has : ∀ a ∈ as, a.Tame) (hrun : run (step x L) (init b mem) (.start :: as) = some s) :
    Settled x L s := by
  obtain ⟨s₁, hstart, hrun⟩ := run_cons.mp hrun
  have hreach : Reachable (step x L) (init b mem) s₁ := (Reachable.refl _).trans_step hstart
  have hmeets : Meets (step x L) (fun _ a => a.Tame) s₁ as := meets_of_labels has
  refine run_invariant_where (fun _ _ _ hI ha ht => settled_step hI ha ht) ?_ hmeets hrun
  have honly : run (step x L) (init b mem) [.start] = some s₁ := run_cons.mpr ⟨s₁, hstart, rfl⟩
  have hfirst : FirstStart s₁ := firstStart_run (List.forall_mem_nil _) honly
  cases hstart
  exact ⟨⟨b, mem, hreach⟩, hfirst, trivial, by simp [init, Umem.init], nofun⟩

/-! ## What is left of the loop's body -/

/-- The RX thread runs. -/
def Rx.InLoop : Rx → Prop
  | .down | .starting | .priming | .exited => False
  | _ => True

/-- The RX thread is past the test of `stop_flag_`. -/
def Rx.InBody (rx : Rx) : Prop := rx.InLoop ∧ rx ≠ .top

/-- Steps for one frame: it is picked up, read, pushed or dropped. -/
def frameSteps (ι : Type) [Fintype ι] : Nat := kMaxReads + Fintype.card ι + 4

/-- Steps the RX thread still has to make in the loop's body. -/
def bodyRank (s : State ι α) : Nat :=
  match s.rx with
  | .bursting =>
      match s.frames.user with
      | .bursting rcvd => rcvd * frameSteps ι + 4
      | _ => 0
  | .polling => 1
  | .received => s.frames.held.length * frameSteps ι + 3
  | .handling _ rest => rest.length * frameSteps ι + 2
  | .parsing p rest =>
      (kMaxReads - p.seen.length) + (Fintype.card ι + 3) + (rest.length * frameSteps ι + 2)
  | .pushing _ rest => s.ring.prod.rank + (rest.length * frameSteps ι + 2)
  | .refused _ rest => 1 + (rest.length * frameSteps ι + 2)
  | .releasing => 1
  | _ => 0

/-- The whole body, for a full batch. -/
def bodySteps (ι : Type) [Fintype ι] : Nat := kMaxBatch * frameSteps ι + 4

omit [DecidableEq ι] in
theorem bodyRank_congr (hrx : s'.rx = s.rx) (hu : s'.frames.user = s.frames.user)
    (hh : s'.frames.held = s.frames.held) (hp : s'.ring.prod = s.ring.prod) :
    bodyRank s' = bodyRank s := by
  rw [bodyRank, bodyRank, hrx, hu, hh, hp]

omit [DecidableEq ι] in
theorem bodyRank_le (hI : Ready s) : bodyRank s ≤ bodySteps ι := by
  have hmul : ∀ {n : Nat}, n ≤ kMaxBatch → n * frameSteps ι ≤ kMaxBatch * frameSteps ι :=
    fun h => Nat.mul_le_mul_right _ h
  have hnext : ∀ {n : Nat}, n < kMaxBatch →
      n * frameSteps ι + frameSteps ι ≤ kMaxBatch * frameSteps ι := by
    intro n h
    rw [← Nat.succ_mul]
    exact Nat.mul_le_mul_right _ h
  rw [bodyRank, bodySteps]
  rw [Ready] at hI
  cases hrx : s.rx with
  | down | starting | priming | top | exited => exact Nat.zero_le _
  | bursting =>
      rw [hrx] at hI
      obtain ⟨rcvd, hu, hle⟩ := hI
      have := hmul hle
      simp only [hu]
      omega
  | received =>
      rw [hrx] at hI
      have := hmul hI.2
      dsimp only
      omega
  | handling ts rest =>
      rw [hrx] at hI
      have := hmul hI.2
      dsimp only
      omega
  | parsing p rest =>
      rw [hrx] at hI
      have := hnext hI.2
      rw [frameSteps] at *
      dsimp only
      omega
  | pushing p rest =>
      rw [hrx] at hI
      have := hnext hI.2
      have := s.ring.prod.rank_le
      rw [frameSteps] at *
      dsimp only
      omega
  | refused ts rest =>
      rw [hrx] at hI
      have := hnext hI.2
      rw [frameSteps] at *
      dsimp only
      omega
  | polling | releasing =>
      dsimp only
      omega

/-- Every step the RX thread makes in the body brings it nearer to the
top of the loop. -/
theorem bodyRank_own {a : Action ι} (hI : Settled x L s) (hbody : s.rx.InBody)
    (h : step x L s a = some s') (ha : isRx a = true) : bodyRank s' < bodyRank s := by
  have hbooks : Books L s.rx s.frames.held s.ring s.log s.received s.pktsRx s.pktsDropped :=
    hI.accounted
  cases step_moves h with
  | start | populate | populateSubmit | stop | join | kernel | kernelWrite | consumer => cases ha
  | exit hrx _ | burst hrx _ => exact absurd hrx hbody.2
  | burstDone hrx hf =>
      have hc := hI.coupled
      rw [Coupled, hrx] at hc
      obtain ⟨rcvd, hu, rfl⟩ := step_rxBurstRelease hf
      simp only [bodyRank, hrx, hu]
      by_cases hheld : s.frames.held ++ s.frames.rx.take rcvd = []
      · rw [if_pos hheld]
        dsimp only
        omega
      · rw [if_neg hheld, hc, List.nil_append]
        have := Nat.mul_le_mul_right (frameSteps ι) (List.length_take_le rcvd s.frames.rx)
        dsimp only
        omega
  | polled hrx | stamp hrx =>
      simp only [bodyRank, hrx]
      omega
  | nextFrame hrx =>
      simp only [bodyRank, hrx, List.length_cons, List.length_nil, Nat.succ_mul]
      rw [frameSteps]
      omega
  | release hrx hf =>
      simp only [bodyRank, hrx, List.length_nil]
      omega
  | @readByte p rest addr k hrx hp =>
      have hlt : p.seen.length < kMaxReads := (buildEvent_within p.packet p.ts).feed_lt hp
      simp only [bodyRank, hrx, List.length_append, List.length_singleton]
      omega
  | skip hrx hp =>
      simp only [bodyRank, hrx, State.finish]
      omega
  | push hrx hp hr =>
      obtain ⟨v, -, -, rfl⟩ := Spsc.step_push hr
      simp only [bodyRank, hrx, Spsc.Producer.rank]
      omega
  | pushRefused hrx hr hidle =>
      obtain ⟨ev, i, v, hload, -⟩ := Spsc.step_pushCheck hr
      simp only [bodyRank, hrx, State.finish, hload, Spsc.Producer.rank]
      omega
  | pushRoom hrx hr _ | pushWord hrx hr =>
      rw [hrx] at hbooks
      have hbusy : s.ring.prod ≠ .idle := hbooks.producer.busy
      have := Spsc.pushRank_own rfl hbusy hr
      simp only [bodyRank, hrx]
      omega
  | pushStore hrx hr =>
      obtain ⟨ev, i, hcopy, -⟩ := Spsc.step_pushStore hr
      simp only [bodyRank, hrx, State.finish, hcopy, Spsc.Producer.rank]
      omega
  | drop hrx =>
      simp only [bodyRank, hrx]
      omega
  | releaseSubmit hrx hf =>
      simp only [bodyRank, hrx]
      omega

/-- Nobody else's step holds the RX thread up. -/
theorem bodyRank_other {a : Action ι} (hloop : s.rx.InLoop) (h : step x L s a = some s')
    (ha : isRx a = false) : s'.rx = s.rx ∧ bodyRank s' = bodyRank s := by
  cases step_moves h with
  | start hrx | populate hrx _ | populateSubmit hrx _ | join hrx =>
      rw [hrx] at hloop
      exact hloop.elim
  | stop | kernelWrite => exact ⟨rfl, bodyRank_congr rfl rfl rfl rfl⟩
  | kernel hk hf =>
      obtain ⟨hu, hh, -⟩ := kernel_frame hk hf
      exact ⟨rfl, bodyRank_congr rfl hu hh rfl⟩
  | consumer hk hr => exact ⟨rfl, bodyRank_congr rfl rfl rfl (consumer_frame hk hr).1⟩
  | _ => cases ha

/-- A `push` that has begun is one of three steps from its end. -/
theorem pushing_enabled {p : Parse} {rest : List RxDesc} (hI : Accounted L s)
    (hrx : s.rx = .pushing p rest) :
    ∃ a : Action ι, isRx a = true ∧ a.StaysIn ∧ (step x L s a).isSome := by
  have hbooks : Books L s.rx s.frames.held s.ring s.log s.received s.pktsRx s.pktsDropped := hI
  rw [hrx] at hbooks
  have hbusy : s.ring.prod ≠ .idle := hbooks.producer.busy
  obtain ⟨a, ha, hsome⟩ := Spsc.push_enabled hbooks.ringInv hbusy
  obtain ⟨r, hr⟩ := Option.isSome_iff_exists.mp hsome
  cases a with
  | push ev =>
      obtain ⟨_, hidle, -⟩ := Spsc.step_push hr
      exact absurd hidle hbusy
  | pushQuery q j =>
      obtain ⟨_, hidle, -⟩ := Spsc.step_pushQuery hr
      exact absurd hidle hbusy
  | pushCheck j => exact ⟨.pushCheck j, rfl, trivial, by simp [step, hrx, State.onRing, hr]⟩
  | pushWord w => exact ⟨.pushWord w, rfl, trivial, by simp [step, hrx, State.onRing, hr]⟩
  | pushStore => exact ⟨.pushStore, rfl, trivial, by simp [step, hrx, State.onRing, hr]⟩
  | _ => cases ha

/-- The RX thread can always go on, and never has to dereference null. -/
theorem body_enabled (hI : Settled x L s) (hbody : s.rx.InBody) :
    ∃ a : Action ι, isRx a = true ∧ a.StaysIn ∧ (step x L s a).isSome := by
  have hc := hI.coupled
  have hr := hI.ready
  have hbooks : Books L s.rx s.frames.held s.ring s.log s.received s.pktsRx s.pktsDropped :=
    hI.accounted
  rw [Coupled] at hc
  rw [Ready] at hr
  cases hrx : s.rx with
  | top => exact absurd hrx hbody.2
  | down | starting | priming | exited =>
      rw [hrx] at hbody
      exact hbody.1.elim
  | bursting =>
      rw [hrx] at hr
      obtain ⟨rcvd, hu, -⟩ := hr
      exact ⟨.burstDone, rfl, trivial, by simp [step, hrx, State.onFrames, Umem.step, hu]⟩
  | polling => exact ⟨.polled, rfl, trivial, by simp [step, hrx]⟩
  | received => exact ⟨.stamp 0, rfl, trivial, by simp [step, hrx]⟩
  | handling ts rest =>
      rw [hrx] at hc
      refine ⟨.next, rfl, trivial, ?_⟩
      cases rest with
      | nil =>
          simp only [step, hrx, State.onFrames, Umem.step, hc.1, List.append_nil, List.Perm.refl,
            if_true, Option.isSome_map]
          split <;> rfl
      | cons d rest => simp [step, hrx]
  | parsing p rest =>
      rw [hrx] at hbooks
      have hidle : s.ring.prod = .idle := hbooks.producer
      have hdef := hI.still p rest hrx
      cases hp : p.residue with
      | undefined =>
          rw [hp] at hdef
          exact hdef.elim
      | read addr k => exact ⟨.readByte, rfl, trivial, by simp [step, hrx, hp]⟩
      | done r =>
          refine ⟨.parsed, rfl, trivial, ?_⟩
          cases r with
          | none => simp [step, hrx, hp]
          | some ev =>
              obtain ⟨v, hv, -⟩ := hbooks.ringInv.lastTail
              simp [step, hrx, hp, State.onRing, Spsc.step, hidle, hv]
  | pushing p rest =>
      exact pushing_enabled hI.accounted hrx
  | refused ts rest => exact ⟨.drop, rfl, trivial, by simp [step, hrx]⟩
  | releasing =>
      rw [hrx] at hr
      obtain ⟨ds, r, hu⟩ := hr
      exact ⟨.releaseSubmit, rfl, trivial, by simp [step, hrx, State.onFrames, Umem.step, hu]⟩

/-- The environment lets the RX thread make any step it can make. -/
theorem Environment.admits {C : State ι α → Action ι → Prop} (henv : Environment C)
    {a : Action ι} (ha : isRx a = true) (hsome : (step x L s a).isSome) : C s a := by
  by_cases hpoll : a = .polled
  · subst hpoll
    obtain ⟨t, ht⟩ := Option.isSome_iff_exists.mp hsome
    cases step_moves ht with
    | polled hrx => exact henv.pollReturns s hrx
  · exact henv.runs s a ha hpoll

theorem body_ranked {C : State ι α → Action ι → Prop} (henv : Environment C) :
    Ranked (step x L) C isRx (Settled x L) (fun s => s.rx.InBody) bodyRank where
  keeps s a _ hI ha h := settled_step hI (henv.tame s a ha) h
  own _ _ _ hI hbody _ h ha := bodyRank_own hI hbody h ha
  other _ _ _ _ hbody _ h ha := (bodyRank_other hbody.1 h ha).2
  enabled s hI hbody := by
    obtain ⟨a, ha, -, hsome⟩ := body_enabled hI hbody
    exact ⟨a, ha, henv.admits ha hsome, hsome⟩

/-- `poll` is the one call that waits: a thread inside of it moves by its
return only, so where it does not return the body is never completed. -/
theorem polling_waits {C : State ι α → Action ι → Prop} (hnever : ∀ t, ¬ C t .polled)
    (hrx : s.rx = .polling) (n : Nat) :
    ¬ Completes (step x L) C isRx (fun t => t.rx.InBody) n s := by
  intro h
  obtain ⟨as, t, -, hmeets, hrun, hidle, -⟩ := h.alone
  have hstays : ∀ u a v, u.rx = .polling → C u a → step x L u a = some v → v.rx = .polling := by
    intro u a v hu ha hv
    cases step_moves hv with
    | polled => exact absurd ha (hnever u)
    | stop | kernel | kernelWrite | consumer => exact hu
    | start h' | populate h' | populateSubmit h' | join h' | exit h' | burst h' | burstDone h'
    | stamp h' | nextFrame h' | release h' | readByte h' | skip h' | push h' | pushRefused h'
    | pushRoom h' | pushWord h' | pushStore h' | drop h' | releaseSubmit h' =>
        rw [hu] at h'
        cases h'
  have hpolling := run_invariant_where (I := fun u : State ι α => u.rx = .polling) hstays hrx
    hmeets hrun
  rw [hpolling] at hidle
  exact hidle ⟨trivial, nofun⟩

/-- **The loop's body never stalls.** From a single `start()`, in every
state that any interleaving reaches while the kernel posts frames inside
their UMEM frames: what is left of a parse dereferences no null pointer;
and in every environment where `poll` returns, the RX thread is back at
the top of its loop within so many of its own steps, at most 64 frames
with `kMaxReads` reads and one push each, however often the kernel and the
consumer move in between, and it can always make these steps. -/
theorem body_completes (x : Libxdp) (L : Spsc.TriviallyCopyable FeedEvent ι α)
    (b : Nat → ι → α) (mem : Nat → UInt8) (as : List (Action ι)) (s : State ι α)
    (has : ∀ a ∈ as, a.Tame) (hrun : run (step x L) (init b mem) (.start :: as) = some s)
    (C : State ι α → Action ι → Prop) (henv : Environment C) :
    (∀ p rest, s.rx = .parsing p rest → ∃ r, p.residue.eval s.mem = some r) ∧
      Completes (step x L) C isRx (fun t => t.rx.InBody)
        (64 * (kMaxReads + Fintype.card ι + 4) + 4) s := by
  have hI : Settled x L s := settled_run has hrun
  refine ⟨fun p rest hrx => ?_, (body_ranked henv).completes hI (bodyRank_le hI.ready)⟩
  exact (hI.still p rest hrx).eval_some

theorem firstFrame_tame : ∀ a ∈ firstFrame, a.Tame := by
  have hpost : InFrame ⟨256, 60, 0⟩ := by decide
  simp [firstFrame, Action.Tame, hpost]

/-- In the middle of a parse, with the kernel moving on. -/
theorem body_completes_firstFrame :
    ∃ s, run (step .byFree oneWord) (init (fun _ _ => {}) fun _ => 17)
        (.start :: firstFrame) = some s ∧
      s.rx.InBody ∧ bodyRank s = 98 ∧
      Completes (step .byFree oneWord) (fun _ a => a.Tame) isRx (fun t => t.rx.InBody) 6276 s := by
  have hrun := (Option.some_get firstFrame_enabled).symm
  have hrx : ((run (step .byFree oneWord) (init (fun _ _ => {}) fun _ => 17)
      (.start :: firstFrame)).get firstFrame_enabled).rx
        = .parsing ⟨⟨256, 60, 0⟩, 7, [17]⟩ [] := by
    clear hrun
    decide +kernel
  refine ⟨_, hrun, ?_, ?_, (body_completes .byFree oneWord _ _ firstFrame _ firstFrame_tame hrun
    _ environment_tame).2⟩
  · rw [hrx]
    exact ⟨trivial, nofun⟩
  · rw [bodyRank, hrx]
    rfl

/-! ## `stop()` -/

/-- Steps until the RX thread has left its loop. -/
def loopRank (s : State ι α) : Nat :=
  match s.rx with
  | .down | .starting | .priming | .exited => 0
  | _ => bodyRank s + 1

omit [DecidableEq ι] in
theorem loopRank_le (s : State ι α) : loopRank s ≤ bodyRank s + 1 := by
  rw [loopRank]
  split <;> omega

omit [DecidableEq ι] in
theorem loopRank_eq (h : s.rx.InLoop) : loopRank s = bodyRank s + 1 := by
  rw [loopRank]
  cases hrx : s.rx with
  | down | starting | priming | exited =>
      rw [hrx] at h
      exact h.elim
  | _ => rfl

theorem stopFlag_step {a : Action ι} (hflag : s.stopFlag = true) (ha : a.Tame)
    (h : step x L s a = some s') : s'.stopFlag = true := by
  cases step_moves h with
  | start => exact ha.elim
  | stop => rfl
  | _ => exact hflag

/-- The RX thread finds `stop_flag_` set: it does not go into the body. -/
theorem loop_ranked {C : State ι α → Action ι → Prop} (henv : Environment C) :
    Ranked (step x L) (fun s a => C s a ∧ a.StaysIn) isRx
      (fun s => Settled x L s ∧ s.stopFlag = true) (fun s => s.rx.InLoop) loopRank where
  keeps s a _ hI ha h :=
    ⟨settled_step hI.1 (henv.tame s a ha.1) h, stopFlag_step hI.2 (henv.tame s a ha.1) h⟩
  own s a t hI hloop ha h hmine := by
    rw [loopRank_eq hloop]
    by_cases htop : s.rx = .top
    · cases step_moves h with
      | exit => exact Nat.succ_pos _
      | burst => exact ha.2.elim
      | start | populate | populateSubmit | stop | join | kernel | kernelWrite | consumer =>
          cases hmine
      | burstDone hrx _ | polled hrx | stamp hrx | nextFrame hrx | release hrx _
      | readByte hrx _ | skip hrx _ | push hrx _ _ | pushRefused hrx _ _ | pushRoom hrx _ _
      | pushWord hrx _ | pushStore hrx _ | drop hrx | releaseSubmit hrx _ =>
          rw [htop] at hrx
          cases hrx
    · have hlt := bodyRank_own hI.1 ⟨hloop, htop⟩ h hmine
      have hle := loopRank_le t
      omega
  other s a t hI hloop _ h hmine := by
    obtain ⟨hrx, hrank⟩ := bodyRank_other hloop h hmine
    have hloop' : t.rx.InLoop := by
      rw [hrx]
      exact hloop
    rw [loopRank_eq hloop, loopRank_eq hloop', hrank]
  enabled s hI hloop := by
    by_cases htop : s.rx = .top
    · exact ⟨.exit, rfl, ⟨henv.runs s _ rfl nofun, trivial⟩, by simp [step, htop, hI.2]⟩
    · obtain ⟨a, ha, hburst, hsome⟩ := body_enabled hI.1 ⟨hloop, htop⟩
      exact ⟨a, ha, ⟨henv.admits ha hsome, hburst⟩, hsome⟩

/-- **`stop()` does not hang.** From a single `start()`, in every
environment where `poll` returns and the kernel posts frames inside their
UMEM frames: once the flag is set and the RX thread finds it set when it
looks next, the thread leaves its loop within a body's steps and one,
wherever it is and however often the kernel and the consumer move in
between, and it can always make these steps: so `rx_thread_.join()`
returns. -/
theorem stop_returns (x : Libxdp) (L : Spsc.TriviallyCopyable FeedEvent ι α)
    (b : Nat → ι → α) (mem : Nat → UInt8) (as : List (Action ι)) (s : State ι α)
    (has : ∀ a ∈ as, a.Tame) (hrun : run (step x L) (init b mem) (.start :: as) = some s)
    (hflag : s.stopFlag = true) (C : State ι α → Action ι → Prop) (henv : Environment C) :
    Completes (step x L) (fun t a => C t a ∧ a.StaysIn) isRx (fun t => t.rx.InLoop)
      (64 * (kMaxReads + Fintype.card ι + 4) + 5) s := by
  have hI : Settled x L s := settled_run has hrun
  refine (loop_ranked henv).completes ⟨hI, hflag⟩ (Nat.le_trans (loopRank_le s) ?_)
  exact Nat.succ_le_succ (bodyRank_le hI.ready)

/-- `stop()` is called while the RX thread waits in `poll`. -/
def stoppedInPoll : List (Action Unit) :=
  [.populate, .populateSubmit, .burst 0, .burstDone, .stop]

theorem stoppedInPoll_enabled :
    (run (step .byFree oneWord) (init (fun _ _ => {}) fun _ => 17)
      (.start :: stoppedInPoll)).isSome := by
  decide +kernel

theorem stop_returns_stoppedInPoll :
    ∃ s, run (step .byFree oneWord) (init (fun _ _ => {}) fun _ => 17)
        (.start :: stoppedInPoll) = some s ∧ s.rx = .polling ∧ s.stopFlag = true ∧
      Completes (step .byFree oneWord) (fun _ a => a.Tame ∧ a.StaysIn) isRx
        (fun t => t.rx.InLoop) 6277 s := by
  have hrun := (Option.some_get stoppedInPoll_enabled).symm
  have hrx : ((run (step .byFree oneWord) (init (fun _ _ => {}) fun _ => 17)
      (.start :: stoppedInPoll)).get stoppedInPoll_enabled).rx = .polling := by
    clear hrun
    decide +kernel
  have hflag : ((run (step .byFree oneWord) (init (fun _ _ => {}) fun _ => 17)
      (.start :: stoppedInPoll)).get stoppedInPoll_enabled).stopFlag = true := by
    clear hrun hrx
    decide +kernel
  have htame : ∀ a ∈ stoppedInPoll, a.Tame := by
    simp [stoppedInPoll, Action.Tame]
  exact ⟨_, hrun, hrx, hflag,
    stop_returns .byFree oneWord _ _ _ _ htame hrun hflag _ environment_tame⟩

end UltrafastFeed.Handler
