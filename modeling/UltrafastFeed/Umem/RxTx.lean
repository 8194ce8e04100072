import UltrafastFeed.Lib.Run
import UltrafastFeed.Umem.Conservation

/-!
# Umem — receive and transmit share the region

Two allocators hand out the same frames. `populate_fill_ring` takes the
frames `0 .. n-1`, `n = min(fill_size, frame_count)`, without asking the
free list, and the constructor puts ALL frames on the free list, frame
`0` at the bottom. The free list is a LIFO, so the frames `0 .. n-1`
stay at its bottom as long as `alloc_frame` never digs down to them:
that, and not any check in the code, is what keeps the two apart.
-/

namespace UltrafastFeed.Umem

open Lib.Run

variable {x : Libxdp} {cfg : UmemConfig} {s s' : State}

/-! ## The receive side uses the pre-loaded frames only -/

/-- Frames in circulation, and frames about to be, are below `n`. -/
structure RxBelow (cfg : UmemConfig) (n : Nat) (s : State) : Prop where
  occ : ∀ i, 0 < s.occ cfg i → i < n
  reserved : ∀ r, s.user = .populating r → r ≤ n

theorem rxBelow_init (cfg : UmemConfig) (n : Nat) : RxBelow cfg n (init cfg) where
  occ i hi := by
    rw [occ_init] at hi
    exact absurd hi (Nat.lt_irrefl 0)
  reserved r hr := by cases hr

theorem RxBelow.step {a : Action} (hI : RxBelow cfg cfg.preload s)
    (hfit : cfg.OffsetsFit cfg.preload) (h : step x cfg s a = some s') :
    RxBelow cfg cfg.preload s' where
  occ := by
    intro i hi
    by_cases ha : a = .populateSubmit
    · subst ha
      obtain ⟨r, hu, hocc⟩ := populateSubmit_occ h
      have hr : r ≤ cfg.preload := hI.reserved r hu
      rw [hocc, count_entries (hfit.mono hr)] at hi
      by_cases hir : i < r
      · omega
      · rw [if_neg hir] at hi
        exact hI.occ i hi
    · exact hI.occ i (Nat.lt_of_lt_of_le hi (step_occ_le h ha i))
  reserved := by
    intro r hr
    rcases (step_frame h).populating r hr with hu | ⟨-, rfl⟩
    · exact hI.reserved r hu
    · exact reserve_le x s.fill cfg.preload

/-! ## The transmit side stays above them -/

/-- The free list still has the first `n` frames at its bottom; what is
above them, and what is allocated, are other frames. -/
structure TxAbove (cfg : UmemConfig) (n : Nat) (s : State) : Prop where
  out : ∀ o ∈ s.out, n ≤ cfg.frameOf o
  free : ∃ top, s.freeFrames = top ++ (cfg.entries n).reverse ∧
    ∀ o ∈ top, n ≤ cfg.frameOf o

theorem entries_split {m n : Nat} (h : n ≤ m) :
    cfg.entries m
      = cfg.entries n ++ (List.range' n (m - n)).map fun i => cfg.frameOffset (UInt64.ofNat i) := by
  obtain ⟨k, rfl⟩ := Nat.exists_eq_add_of_le h
  rw [UmemConfig.entries, UmemConfig.entries, ← List.map_append, List.range_eq_range',
    List.range_eq_range', Nat.add_sub_cancel_left, ← List.range'_append_1, Nat.zero_add]

theorem txAbove_init {n : Nat} (hn : n ≤ cfg.frameCount.toNat)
    (hfit : cfg.OffsetsFit cfg.frameCount.toNat) : TxAbove cfg n (init cfg) where
  out o ho := by cases ho
  free := by
    refine ⟨_, by rw [init, entries_split hn, List.reverse_append], ?_⟩
    intro o ho
    obtain ⟨i, hi, rfl⟩ := List.mem_map.mp (List.mem_reverse.mp ho)
    rw [List.mem_range'_1] at hi
    rw [frameOf_frameOffset hfit (by omega)]
    exact hi.1

/-- The condition on a step: `alloc_frame` leaves the bottom `n` entries
of the free list alone. -/
def AllocAbove (n : Nat) (s : State) (a : Action) : Prop :=
  a = .allocFrame → n < s.freeFrames.length

instance (n : Nat) (s : State) (a : Action) : Decidable (AllocAbove n s a) :=
  inferInstanceAs (Decidable (a = .allocFrame → n < s.freeFrames.length))

theorem TxAbove.step {n : Nat} {a : Action} (hI : TxAbove cfg n s)
    (ha : AllocAbove n s a) (h : step x cfg s a = some s') : TxAbove cfg n s' := by
  obtain ⟨top, hfree, htop⟩ := hI.free
  by_cases halloc : a = .allocFrame
  · subst halloc
    have hlen : n < s.freeFrames.length := ha rfl
    rcases step_allocFrame h with ⟨-, rfl⟩ | ⟨offset, rest, hcons, rfl⟩
    · exact hI
    · -- more than `n` entries: the one on top is not one of the bottom `n`
      cases top with
      | nil =>
          rw [hfree] at hlen
          simp [UmemConfig.entries] at hlen
      | cons o top =>
          rw [hcons, List.cons_append, List.cons.injEq] at hfree
          obtain ⟨rfl, rfl⟩ := hfree
          refine ⟨?_, top, rfl, fun o ho => htop o (List.mem_cons_of_mem _ ho)⟩
          intro o ho
          rcases List.mem_cons.mp ho with rfl | ho
          · exact htop _ List.mem_cons_self
          · exact hI.out o ho
  · by_cases hfr : ∃ o, a = .freeFrame o
    · obtain ⟨offset, rfl⟩ := hfr
      obtain ⟨hmem, rfl⟩ := step_freeFrame h
      refine ⟨fun o ho => hI.out o (List.mem_of_mem_erase ho),
        offset :: top, by rw [hfree, List.cons_append], ?_⟩
      intro o ho
      rcases List.mem_cons.mp ho with rfl | ho
      · exact hI.out _ hmem
      · exact htop o ho
    · obtain ⟨hfree', hout⟩ := (step_frame h).tx halloc fun o ho => hfr ⟨o, ho⟩
      exact ⟨by rw [hout]; exact hI.out, by rw [hfree']; exact hI.free⟩

/-! ## A fill ring that is never populated -/

structure Unpopulated (cfg : UmemConfig) (s : State) : Prop where
  occ : ∀ i, s.occ cfg i = 0
  user : ∀ r, s.user ≠ .populating r

theorem unpopulated_init (cfg : UmemConfig) : Unpopulated cfg (init cfg) where
  occ := occ_init cfg
  user _ hr := by cases hr

theorem Unpopulated.step {a : Action} (hI : Unpopulated cfg s)
    (ha : a ≠ .populate) (h : step x cfg s a = some s') : Unpopulated cfg s' where
  occ := by
    have hsub : a ≠ .populateSubmit := by
      rintro rfl
      obtain ⟨r, hu, -⟩ := step_populateSubmit h
      exact hI.user r hu
    intro i
    have hle : s'.occ cfg i ≤ s.occ cfg i := step_occ_le h hsub i
    rw [hI.occ i] at hle
    exact Nat.le_zero.mp hle
  user := by
    intro r hr
    rcases (step_frame h).populating r hr with hu | ⟨hpop, -⟩
    · exact hI.user r hu
    · exact ha hpop

/-! ## Disjointness -/

/-- **No frame serves RX and TX at once**, in any run that respects the
split the code leaves to its caller: offsets are exact, and either
`alloc_frame` is only ever called with more than `n` entries on the free
list, or the fill ring is never populated. -/
theorem rx_tx_disjoint (x : Libxdp) (cfg : UmemConfig) (as : List Action) (s : State)
    (hfit : cfg.OffsetsFit cfg.frameCount.toNat)
    (hcond : Meets (step x cfg) (AllocAbove cfg.preload) (init cfg) as ∨
      ∀ a ∈ as, a ≠ .populate)
    (hrun : run (step x cfg) (init cfg) as = some s) :
    ∀ o ∈ s.out, s.occ cfg (cfg.frameOf o) = 0 := by
  intro o ho
  rcases hcond with hmeets | hnever
  · have hrx : RxBelow cfg cfg.preload s :=
      run_invariant (fun _ _ _ hI hs => hI.step (hfit.mono (preload_le cfg)) hs)
        (rxBelow_init cfg _) hrun
    have htx : TxAbove cfg cfg.preload s :=
      run_invariant_where (fun _ _ _ hI ha hs => hI.step ha hs)
        (txAbove_init (preload_le cfg) hfit) hmeets hrun
    have habove := htx.out o ho
    by_contra hne
    have hbelow := hrx.occ _ (Nat.pos_of_ne_zero hne)
    omega
  · have hmeets : Meets (step x cfg) (fun _ a => a ≠ .populate) (init cfg) as :=
      meets_of_labels hnever
    have hun : Unpopulated cfg s :=
      run_invariant_where (fun _ _ _ hI ha hs => hI.step ha hs) (unpopulated_init cfg)
        hmeets hrun
    exact hun.occ _

/-- One frame pre-loaded, one left for transmission. -/
def oneEach : UmemConfig := { frameCount := 2, fillSize := 1 }

theorem rx_tx_disjoint_oneEach :
    ∃ s, run (step .byFree oneEach) (init oneEach)
        [.populate, .populateSubmit, .allocFrame] = some s ∧
      s.fill.queue = [0] ∧ s.out = [4096] ∧
      ∀ o ∈ s.out, s.occ oneEach (oneEach.frameOf o) = 0 :=
  ⟨_, rfl, rfl, rfl, rx_tx_disjoint .byFree oneEach [.populate, .populateSubmit, .allocFrame] _
    (by decide) (.inl (by decide)) rfl⟩

/-- With both frames of a region pre-loaded, the first `alloc_frame`
returns a frame that is in the fill ring. -/
theorem alloc_frame_in_fill_ring :
    ∃ s, run (step .byFree twoFrames) (init twoFrames)
        [.populate, .populateSubmit, .allocFrame] = some s ∧
      ¬ ∀ o ∈ s.out, s.occ twoFrames (twoFrames.frameOf o) = 0 :=
  ⟨_, rfl, fun h => absurd (h 4096 List.mem_cons_self) (by decide)⟩

end UltrafastFeed.Umem
