import UltrafastFeed.Lib.DescRing
import UltrafastFeed.Umem.Model

/-!
# Socket — Model

The three rings `XdpSocket` (`xdp_socket.cpp`) works on, with the kernel
at the other end of each. `rx_burst` drains the RX ring and `tx_complete`
the completion ring, in the same three phases: peek, copy entry by entry,
release; `tx_burst` fills the TX ring: reserve, write entry by entry,
submit. Every phase and every entry is a step of its own, and the kernel
may move between any two.

LIBXDP. `peek` returns any number up to the one asked for and up to what
is available; `reserve` grants all slots it is asked for or none, and
grants only free ones. Both take a 32-bit number, and an entry is
accessed at its index masked by the size.

KERNEL. It writes and reads one entry at a time, ahead of the index it
has published, and publishes any part of its work later.

`posted`, `returned`, `calls` and `taken` are not program state: they
record what the kernel posted and took and what the calls returned.
-/

namespace UltrafastFeed.Socket

open Lib Lib.DescRing

/-- `struct xdp_desc`. -/
structure XdpDesc where
  addr : UInt64
  len : UInt32
  options : UInt32
  deriving DecidableEq, Repr

/-! ## A ring that the socket drains -/

/-- Where a draining call is: `n` entries peeked from index `idx` on, of
which those in `out` are copied. -/
inductive Draining (O : Type) where
  | idle
  | copying (idx : UInt32) (n : Nat) (out : List O)
  deriving DecidableEq, Repr

structure Inbound (E O : Type) where
  ring : DescRing E
  call : Draining O
  /-- Every entry the kernel has written, in order. -/
  posted : List E
  /-- What each finished call put into its output. -/
  returned : List (List O)

/-- `burst nb n`: a call with room for `nb` in which `peek` returns `n`. -/
inductive InAction (E : Type) where
  | burst (nb n : Nat)
  | copy
  | finish
  | post (e : E)
  | publish (k : UInt32)
  deriving DecidableEq, Repr

variable {E O : Type}

def Inbound.init (i : UInt32) (entries : UInt32 → E) : Inbound E O :=
  ⟨DescRing.fresh i entries, .idle, [], []⟩

/-- One step on a ring that is drained with `copyOut`. -/
def Inbound.step (z : RingSize) (copyOut : E → O) (s : Inbound E O) :
    InAction E → Option (Inbound E O)
  | .burst nb n =>
      match s.call with
      | .idle =>
          if n ≤ nb % 2 ^ 32 ∧ n ≤ s.ring.available.toNat then
            -- an unsuccessful `peek` leaves `idx = 0`
            some { s with
              ring := s.ring.peek (UInt32.ofNat n)
              call := .copying (if 0 < n then s.ring.cachedCons else 0) n [] }
          else none
      | _ => none
  | .copy =>
      match s.call with
      | .copying idx n out =>
          if out.length < n then
            let e := s.ring.read z (idx + UInt32.ofNat out.length)
            some { s with call := .copying idx n (out ++ [copyOut e]) }
          else none
      | _ => none
  | .finish =>
      match s.call with
      | .copying _ n out =>
          if out.length = n then
            some { s with
              ring := if 0 < n then s.ring.release (UInt32.ofNat n) else s.ring
              call := .idle
              returned := s.returned ++ [out] }
          else none
      | _ => none
  | .post e =>
      if 0 < s.ring.free z then
        some { s with
          ring := (s.ring.reserve 1).write z s.ring.cachedProd e
          posted := s.posted ++ [e] }
      else none
  | .publish k =>
      if k ≤ s.ring.cachedProd - s.ring.producer then
        some { s with ring := s.ring.submit k }
      else none

/-! ## The ring that the socket fills -/

/-- Where `tx_burst` is: of the frames `descs` of the call, `reserved` are
to be written from index `idx` on and `i` have been. -/
inductive Filling where
  | idle
  | writing (idx : UInt32) (reserved : Nat) (descs : List (UInt64 × UInt32)) (i : Nat)
  deriving DecidableEq, Repr

structure Outbound where
  ring : DescRing XdpDesc
  call : Filling
  /-- The arguments and the return value of each finished call. -/
  calls : List (List (UInt64 × UInt32) × Nat)
  /-- Every descriptor the kernel has read, in order. -/
  taken : List XdpDesc

inductive OutAction where
  | burst (descs : List (UInt64 × UInt32)) (granted : Bool)
  | write
  | submit
  | take
  | release (k : UInt32)
  deriving DecidableEq, Repr

def Outbound.init (i : UInt32) (entries : UInt32 → XdpDesc) : Outbound :=
  ⟨DescRing.fresh i entries, .idle, [], []⟩

/-- The descriptor `tx_burst` writes for a frame. -/
def txDesc (d : UInt64 × UInt32) : XdpDesc := ⟨d.1, d.2, 0⟩

/-- `tx_burst` and the kernel on the TX ring. -/
def txBurst (z : RingSize) (s : Outbound) : OutAction → Option Outbound
  | .burst descs granted =>
      match s.call with
      | .idle =>
          if descs = [] then
            -- `if (count == 0) return 0;`
            some { s with calls := s.calls ++ [([], 0)] }
          else if granted then
            let n := UInt32.ofNat descs.length
            if n ≤ s.ring.free z then
              some { s with
                ring := s.ring.reserve n
                call := .writing s.ring.cachedProd n.toNat descs 0 }
            else none
          else some { s with call := .writing 0 0 descs 0 }
      | _ => none
  | .write =>
      match s.call with
      | .writing idx reserved descs i =>
          if i < reserved then
            match descs[i]? with
            | some d =>
                some { s with
                  ring := s.ring.write z (idx + UInt32.ofNat i) (txDesc d)
                  call := .writing idx reserved descs (i + 1) }
            | none => none
          else none
      | _ => none
  | .submit =>
      match s.call with
      | .writing _ reserved descs i =>
          if i = reserved then
            some { s with
              ring := if 0 < reserved then s.ring.submit (UInt32.ofNat reserved) else s.ring
              call := .idle
              calls := s.calls ++ [(descs, reserved)] }
          else none
      | _ => none
  | .take =>
      if 0 < s.ring.available then
        some { s with
          ring := s.ring.peek 1
          taken := s.taken ++ [s.ring.read z s.ring.cachedCons] }
      else none
  | .release k =>
      if k ≤ s.ring.cachedCons - s.ring.consumer then
        some { s with ring := s.ring.release k }
      else none

/-! ## The socket -/

/-- What `rx_burst` copies out of an entry. -/
def rxDesc (d : XdpDesc) : Umem.RxDesc := ⟨d.addr, d.len, d.options⟩

/-- `rx_burst` and the kernel on the RX ring. -/
def rxBurst (z : RingSize) :
    Inbound XdpDesc Umem.RxDesc → InAction XdpDesc → Option (Inbound XdpDesc Umem.RxDesc) :=
  Inbound.step z rxDesc

/-- `tx_complete` and the kernel on the completion ring. -/
def txComplete (z : RingSize) :
    Inbound UInt64 UInt64 → InAction UInt64 → Option (Inbound UInt64 UInt64) :=
  Inbound.step z id

structure State where
  rx : Inbound XdpDesc Umem.RxDesc
  tx : Outbound
  comp : Inbound UInt64 UInt64

inductive Action where
  | rx (a : InAction XdpDesc)
  | tx (a : OutAction)
  | comp (a : InAction UInt64)
  deriving DecidableEq, Repr

/-- The depths of the three rings. -/
structure Sizes where
  rx : RingSize
  tx : RingSize
  comp : RingSize

/-- What a fresh socket finds: a counter value and an array per ring. -/
structure Mapped where
  rx : UInt32
  tx : UInt32
  comp : UInt32
  rxEntries : UInt32 → XdpDesc
  txEntries : UInt32 → XdpDesc
  compEntries : UInt32 → UInt64

def init (i : Mapped) : State where
  rx := .init i.rx i.rxEntries
  tx := .init i.tx i.txEntries
  comp := .init i.comp i.compEntries

def step (z : Sizes) (s : State) : Action → Option State
  | .rx a => (rxBurst z.rx s.rx a).map fun r => { s with rx := r }
  | .tx a => (txBurst z.tx s.tx a).map fun t => { s with tx := t }
  | .comp a => (txComplete z.comp s.comp a).map fun c => { s with comp := c }

end UltrafastFeed.Socket
