import Mathlib.Algebra.Ring.Nat
import Mathlib.Data.List.Basic
import Mathlib.Data.List.Perm.Basic
import Mathlib.Tactic.Common

/-!
# Umem — Model

The frames of a UMEM region and everybody who can hold one: `Umem`
(`umem.cpp`), the receive path of `XdpSocket` (`xdp_socket.cpp`), the
kernel, and the application. `populate_fill_ring`, `rx_burst` and
`rx_release` are two steps each (the ring is asked for slots or entries,
later the ring index is stored), and the kernel may run in between; what
the source writes into reserved slots is invisible to the kernel until
the store, so it is part of the second step.

LIBXDP. `xsk_ring_prod__reserve` is a parameter: all that is known of it
in general is that it grants all the slots it is asked for or none.

KERNEL. It takes the oldest fill-ring entry, publishes its consumer index
LATER (until then the entry still counts as a used slot), and posts a
frame it took to the RX ring at an address inside that frame.
-/

namespace UltrafastFeed.Umem

/-- `UmemConfig`, with its defaults. -/
structure UmemConfig where
  frameSize : UInt64 := 4096
  frameCount : UInt64 := 4096
  fillSize : UInt64 := 2048
  deriving DecidableEq, Repr

/-- Two frames, both pre-loaded: the fill ring starts full. -/
def twoFrames : UmemConfig := { frameCount := 2, fillSize := 2 }

/-- `Umem::frame_offset`. -/
def UmemConfig.frameOffset (cfg : UmemConfig) (idx : UInt64) : UInt64 :=
  idx * cfg.frameSize

/-- How many frames `populate_fill_ring` asks for. -/
def UmemConfig.preload (cfg : UmemConfig) : Nat :=
  (min cfg.fillSize cfg.frameCount).toUInt32.toNat

/-- The frame an address lies in. -/
def UmemConfig.frameOf (cfg : UmemConfig) (addr : UInt64) : Nat :=
  addr.toNat / cfg.frameSize.toNat

structure RxDesc where
  addr : UInt64
  len : UInt32
  options : UInt32
  deriving DecidableEq, Repr

/-- The fill ring: submitted entries that the kernel has not taken, and
the number of taken entries whose slots it has not given back yet. -/
structure FillRing where
  size : Nat
  queue : List UInt64
  unpublished : Nat
  deriving DecidableEq, Repr

/-- Free slots, by the consumer index the kernel last published. -/
def FillRing.free (r : FillRing) : Nat := r.size - (r.queue.length + r.unpublished)

/-- `xsk_ring_prod__reserve` grants all it is asked for or nothing. -/
structure Libxdp where
  reserve : FillRing → Nat → Nat
  all_or_nothing : ∀ r n, reserve r n = 0 ∨ reserve r n = n

/-- It grants exactly when the published consumer index leaves room. -/
def Libxdp.ByFree (x : Libxdp) : Prop :=
  ∀ r n, x.reserve r n = if n ≤ r.free then n else 0

/-- The `reserve` of libxdp itself. -/
def Libxdp.byFree : Libxdp where
  reserve r n := if n ≤ r.free then n else 0
  all_or_nothing r n := by
    by_cases h : n ≤ r.free
    · exact .inr (if_pos h)
    · exact .inl (if_neg h)

theorem Libxdp.byFree_spec : Libxdp.byFree.ByFree := fun _ _ => rfl

/-- Which call the application is inside of. -/
inductive User where
  | idle
  | populating (reserved : Nat)
  | bursting (rcvd : Nat)
  | releasing (descs : List RxDesc) (reserved : Nat)
  deriving DecidableEq, Repr

structure State where
  fill : FillRing
  /-- Frames the kernel took from the fill ring and has not posted. -/
  kernel : List UInt64
  rx : List RxDesc
  /-- Received and not yet passed to `rx_release`. -/
  held : List RxDesc
  user : User
  /-- `free_frames_`, with `back()` first. -/
  freeFrames : List UInt64
  /-- Offsets returned by `alloc_frame` and not freed since. -/
  out : List UInt64
  /-- Descriptors of a returned `rx_release` that it did not put back. -/
  lost : List RxDesc
  deriving DecidableEq, Repr

/-- The steps. `rxBurst nb rcvd` is a call with a span of `nb`
descriptors in which `peek` returns `rcvd`; `rxRelease descs rest` is a
call on `descs`, leaving the descriptors `rest` with the application;
`kernelPost i d` posts the `i`-th frame the kernel holds as `d`. -/
inductive Action where
  | populate
  | populateSubmit
  | rxBurst (nb rcvd : Nat)
  | rxBurstRelease
  | rxRelease (descs rest : List RxDesc)
  | rxReleaseSubmit
  | allocFrame
  | freeFrame (offset : UInt64)
  | kernelTake
  | kernelPublish (k : Nat)
  | kernelPost (i : Nat) (d : RxDesc)
  deriving DecidableEq, Repr

/-- The addresses `populate_fill_ring` writes into its slots. -/
def UmemConfig.entries (cfg : UmemConfig) (reserved : Nat) : List UInt64 :=
  (List.range reserved).map fun i => cfg.frameOffset (UInt64.ofNat i)

/-- A constructed `Umem` with its socket. -/
def init (cfg : UmemConfig) : State where
  fill := ⟨cfg.fillSize.toUInt32.toNat, [], 0⟩
  kernel := []
  rx := []
  held := []
  user := .idle
  freeFrames := (cfg.entries cfg.frameCount.toNat).reverse
  out := []
  lost := []

def step (x : Libxdp) (cfg : UmemConfig) (s : State) : Action → Option State
  | .populate =>
      match s.user with
      | .idle => some { s with user := .populating (x.reserve s.fill cfg.preload) }
      | _ => none
  | .populateSubmit =>
      match s.user with
      | .populating reserved =>
          some { s with
            fill := { s.fill with queue := s.fill.queue ++ cfg.entries reserved }
            user := .idle }
      | _ => none
  | .rxBurst nb rcvd =>
      match s.user with
      | .idle =>
          if rcvd ≤ nb % 2 ^ 32 ∧ rcvd ≤ s.rx.length then
            some { s with user := .bursting rcvd }
          else none
      | _ => none
  | .rxBurstRelease =>
      match s.user with
      | .bursting rcvd =>
          some { s with
            rx := s.rx.drop rcvd
            held := s.held ++ s.rx.take rcvd
            user := .idle }
      | _ => none
  | .rxRelease descs rest =>
      match s.user with
      | .idle =>
          if (descs ++ rest).Perm s.held then
            if descs = [] then some s
            else
              some { s with
                held := rest
                user := .releasing descs (x.reserve s.fill (descs.length % 2 ^ 32)) }
          else none
      | _ => none
  | .rxReleaseSubmit =>
      match s.user with
      | .releasing descs reserved =>
          some { s with
            fill := { s.fill with
              queue := s.fill.queue ++ (descs.take reserved).map RxDesc.addr }
            user := .idle
            lost := s.lost ++ descs.drop reserved }
      | _ => none
  | .allocFrame =>
      match s.freeFrames with
      -- `UINT64_MAX` is returned: no frame changes hands
      | [] => some s
      | offset :: rest => some { s with freeFrames := rest, out := offset :: s.out }
  | .freeFrame offset =>
      if offset ∈ s.out then
        some { s with freeFrames := offset :: s.freeFrames, out := s.out.erase offset }
      else none
  | .kernelTake =>
      match s.fill.queue with
      | [] => none
      | a :: rest =>
          some { s with
            fill := { s.fill with queue := rest, unpublished := s.fill.unpublished + 1 }
            kernel := s.kernel ++ [a] }
  | .kernelPublish k =>
      if k ≤ s.fill.unpublished then
        some { s with fill := { s.fill with unpublished := s.fill.unpublished - k } }
      else none
  | .kernelPost i d =>
      match s.kernel[i]? with
      | some a =>
          if cfg.frameOf d.addr = cfg.frameOf a then
            some { s with kernel := s.kernel.eraseIdx i, rx := s.rx ++ [d] }
          else none
      | none => none

end UltrafastFeed.Umem
