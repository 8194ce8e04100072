import UltrafastFeed.Lib.Run
import UltrafastFeed.Umem.Conservation

/-!
# Umem — frames that `rx_release` drops

`rx_release` writes as many addresses as `xsk_ring_prod__reserve`
granted and returns nothing. When the grant is refused the whole batch
is dropped, and nobody holds those frames any more. The pre-load fills
the ring to its brim, so the room for a batch is the room its own frames
left behind, and the kernel publishes that room AFTER it may have posted
the frames: a release that runs in between finds the ring full.
-/

namespace UltrafastFeed.Umem

open Lib.Run

variable {x : Libxdp} {cfg : UmemConfig} {s s' : State}

/-- How many frames the first `populate_fill_ring` places. -/
def placed (x : Libxdp) (cfg : UmemConfig) : Nat := x.reserve (init cfg).fill cfg.preload

theorem placed_le (x : Libxdp) (cfg : UmemConfig) : placed x cfg ≤ cfg.preload :=
  reserve_le x (init cfg).fill cfg.preload

/-- The state after the first `populate_fill_ring`. -/
def populated (x : Libxdp) (cfg : UmemConfig) : State :=
  { init cfg with
    fill := { (init cfg).fill with queue := cfg.entries (placed x cfg) } }

theorem run_populate (x : Libxdp) (cfg : UmemConfig) :
    run (step x cfg) (init cfg) [.populate, .populateSubmit] = some (populated x cfg) := rfl

/-- The condition on a step: `rx_release` is called when the ring, by the
published consumer index, has room for the batch. -/
def RoomToRelease (s : State) : Action → Prop
  | .rxRelease descs _ => descs.length ≤ s.fill.free
  | _ => True

instance (s : State) : ∀ a, Decidable (RoomToRelease s a)
  | .rxRelease descs _ => inferInstanceAs (Decidable (descs.length ≤ s.fill.free))
  | .populate | .populateSubmit | .rxBurst _ _ | .rxBurstRelease | .rxReleaseSubmit
  | .allocFrame | .freeFrame _ | .kernelTake | .kernelPublish _ | .kernelPost _ _ =>
      .isTrue trivial

/-- Nothing has been lost, and no batch in hand will be. -/
structure NoLeak (x : Libxdp) (cfg : UmemConfig) (s : State) : Prop where
  size : s.fill.size < 2 ^ 32
  occ : ∀ i, s.occ cfg i = cfg.count i (cfg.entries (placed x cfg))
  lost : s.lost = []
  granted : ∀ ds r, s.user = .releasing ds r → r = ds.length
  populating : ∀ r, s.user ≠ .populating r

theorem noLeak_populated (x : Libxdp) (cfg : UmemConfig) : NoLeak x cfg (populated x cfg) where
  size := cfg.fillSize.toUInt32.toNat_lt
  occ i := by simp [populated, State.occ, init, User.inHand]
  lost := rfl
  granted _ _ hr := by cases hr
  populating _ hr := by cases hr

/-- Room for the batch: all of it is granted. -/
theorem reserve_room (hx : x.ByFree) {r : FillRing} (hsize : r.size < 2 ^ 32) {n : Nat}
    (hroom : n ≤ r.free) : x.reserve r (n % 2 ^ 32) = n := by
  have hlt : n < 2 ^ 32 := by
    rw [FillRing.free] at hroom
    omega
  rw [Nat.mod_eq_of_lt hlt, hx, if_pos hroom]

theorem NoLeak.step {a : Action} (hI : NoLeak x cfg s) (hx : x.ByFree)
    (hpop : a ≠ .populate) (hroom : RoomToRelease s a) (h : step x cfg s a = some s') :
    NoLeak x cfg s' := by
  have hframe := step_frame h
  have hsub : a ≠ .populateSubmit := by
    rintro rfl
    obtain ⟨r, hu, -⟩ := step_populateSubmit h
    exact hI.populating r hu
  -- the submit of a fully granted batch drops nothing
  have hlost : s'.lost = [] := by
    by_cases ha : a = .rxReleaseSubmit
    · subst ha
      obtain ⟨descs, reserved, hu, rfl⟩ := step_rxReleaseSubmit h
      rw [hI.granted descs reserved hu, hI.lost, List.drop_length]
      rfl
    · rw [hframe.lost ha, hI.lost]
  refine ⟨by rw [hframe.size]; exact hI.size, fun i => ?_, hlost, fun ds r hr => ?_,
    fun r hr => ?_⟩
  · have hsum : s'.occ cfg i + _ = s.occ cfg i + _ := step_conserves h hsub i
    rw [hlost, hI.lost] at hsum
    rw [← hI.occ i]
    exact Nat.add_right_cancel hsum
  · rcases hframe.releasing ds r hr with hu | ⟨rest, rfl, rfl⟩
    · exact hI.granted ds r hu
    · exact reserve_room hx hI.size hroom
  · rcases hframe.populating r hr with hu | ⟨ha, -⟩
    · exact hI.populating r hu
    · exact hpop ha

/-- **RX frames never leak when every batch has room.** After one
`populate_fill_ring` on a fresh `Umem`, in every run in which each
`rx_release` is called while the fill ring, by the consumer index the
kernel last published, has room for its batch: every frame placed at the
start is in exactly one place, and a release in progress puts back every
address it was given. -/
theorem rx_frames_never_leak (x : Libxdp) (hx : x.ByFree) (cfg : UmemConfig)
    (hfit : cfg.OffsetsFit cfg.preload) (as : List Action) (hpop : ∀ a ∈ as, a ≠ .populate)
    (hroom : Meets (step x cfg) RoomToRelease (init cfg) (.populate :: .populateSubmit :: as))
    (s : State)
    (hrun : run (step x cfg) (init cfg) (.populate :: .populateSubmit :: as) = some s) :
    (∀ i, i < placed x cfg → s.occ cfg i = 1) ∧
      ∀ descs reserved s', s.user = .releasing descs reserved →
        step x cfg s .rxReleaseSubmit = some s' →
        s'.fill.queue = s.fill.queue ++ descs.map RxDesc.addr := by
  have hrun' : run (step x cfg) (populated x cfg) as = some s := hrun
  have hroom' : Meets (step x cfg) RoomToRelease (populated x cfg) as :=
    meets_append hroom (run_populate x cfg)
  have hlabels : Meets (step x cfg) (fun _ a => a ≠ .populate) (populated x cfg) as :=
    meets_of_labels hpop
  have hI : NoLeak x cfg s :=
    run_invariant_where (fun _ _ _ hI ha hs => hI.step hx ha.1 ha.2 hs)
      (noLeak_populated x cfg) (hlabels.and hroom') hrun'
  constructor
  · intro i hi
    rw [hI.occ, count_entries (hfit.mono (placed_le x cfg)), if_pos hi]
  · intro descs reserved s' hu hs
    obtain ⟨ds, r, hu', rfl⟩ := step_rxReleaseSubmit hs
    rw [hu] at hu'
    cases hu'
    rw [hI.granted descs reserved hu, List.take_length]

/-- The kernel fills frame `0`, posts it, and publishes its consumer
index before the application releases the frame. -/
def publishedFirst : List Action :=
  [.kernelTake, .kernelPost 0 ⟨256, 60, 0⟩, .kernelPublish 1, .rxBurst 64 1,
    .rxBurstRelease, .rxRelease [⟨256, 60, 0⟩] []]

theorem rx_frames_never_leak_publishedFirst :
    ∃ s, run (step .byFree twoFrames) (init twoFrames)
        (.populate :: .populateSubmit :: publishedFirst) = some s ∧
      s.user = .releasing [⟨256, 60, 0⟩] 1 ∧ s.occ twoFrames 0 = 1 :=
  ⟨_, rfl, rfl, (rx_frames_never_leak .byFree Libxdp.byFree_spec twoFrames (by decide)
    publishedFirst (by decide) (by decide) _ rfl).1 0 (by decide)⟩

/-- The kernel posts frame `0` and has not published its consumer index
when the application releases the frame: the frame is gone. -/
theorem rx_release_leaks :
    ∃ s, run (step .byFree twoFrames) (init twoFrames)
        [.populate, .populateSubmit, .kernelTake, .kernelPost 0 ⟨256, 60, 0⟩,
          .rxBurst 64 1, .rxBurstRelease, .rxRelease [⟨256, 60, 0⟩] [],
          .rxReleaseSubmit] = some s ∧
      0 < placed .byFree twoFrames ∧ ¬ s.occ twoFrames 0 = 1 :=
  ⟨_, rfl, by decide, by decide⟩

end UltrafastFeed.Umem
