import UltrafastFeed.Packet.Model
import UltrafastFeed.Spsc.Model
import UltrafastFeed.Umem.Model

/-!
# FeedHandler — Model

`FeedHandler` (`feed_handler.cpp`): the RX thread's loop, `start`, `stop`
and the consumer's `pop`, over the frames of `Umem` and the ring of
`Spsc`, with the kernel as a fourth party. Everything interleaves: the
RX thread reads a frame BYTE BY BYTE while the kernel may write any
frame it owns, pushes word by word while the consumer pops, and the
kernel moves frames at any time.

The parse of a frame is the program `buildEvent` fed with the bytes read
so far; a null dereference in it is undefined behaviour, and a run ends
there. `stop_flag_` is a relaxed atomic: the loop may miss it, so the
step into the loop body does not test it. After an empty burst the loop
is in `polling` until `poll`, or the CPU hint of `busy_poll`, returns:
the only call of the loop that can wait.

`received` and `log` are not program state: they record what `rx_burst`
returned and what became of each frame.
-/

namespace UltrafastFeed.Handler

open Lib Umem

/-- `umem_()`: the defaults. -/
def umemConfig : UmemConfig := {}

def kMaxBatch : Nat := 64

/-- `FeedHandler::kRingCap`. -/
def kRingCap : Spsc.Capacity where
  N := 65536
  two_le := by decide
  pow2 := by decide
  fits := by decide

/-- The coarsest way to copy an event: as one word. -/
def oneWord : Spsc.TriviallyCopyable FeedEvent Unit FeedEvent :=
  ⟨fun ev _ => ev, fun f => f (), fun _ => rfl⟩

/-- A frame under the parser: its descriptor, the batch's timestamp, and
the bytes read so far. -/
structure Parse where
  desc : RxDesc
  ts : UInt64
  seen : List UInt8
  deriving DecidableEq, Repr

def Parse.packet (p : Parse) : Packet := framePacket p.desc.addr p.desc.len

/-- What is left of the parse. -/
def Parse.residue (p : Parse) : Reads (Option FeedEvent) :=
  (buildEvent p.ts p.packet).feed p.seen

/-- The event a finished parse built. -/
def Parse.event (p : Parse) : Option FeedEvent :=
  match p.residue with
  | .done ev => ev
  | _ => none

/-- What `is_udp()` answered in this parse. -/
def Parse.isUdp (p : Parse) : Bool :=
  match p.packet.isUdp.feed p.seen with
  | .done b => b
  | _ => false

/-- A frame the inner loop is done with. `refused`: `push` returned false,
with this many pushed events that the producer had not seen released. -/
structure Handled where
  parse : Parse
  refused : Option Nat
  deriving DecidableEq, Repr

/-- Where the RX thread is, or the `start()` that launches it. -/
inductive Rx where
  | down
  | starting
  | priming
  | top
  | bursting
  | polling
  | received
  | handling (ts : UInt64) (rest : List RxDesc)
  | parsing (p : Parse) (rest : List RxDesc)
  | pushing (p : Parse) (rest : List RxDesc)
  | refused (ts : UInt64) (rest : List RxDesc)
  | releasing
  | exited
  deriving DecidableEq, Repr

structure State (ι α : Type) where
  frames : Umem.State
  ring : Spsc.State FeedEvent ι α
  /-- The bytes of the UMEM region. -/
  mem : Nat → UInt8
  stopFlag : Bool
  pktsRx : UInt64
  pktsDropped : UInt64
  rx : Rx
  received : List RxDesc
  log : List Handled

inductive Action (ι : Type) where
  -- the controlling thread
  | start
  | populate
  | populateSubmit
  | stop
  | join
  -- the RX thread
  | exit
  | burst (rcvd : Nat)
  | burstDone
  | polled
  | stamp (ts : UInt64)
  | next
  | readByte
  | parsed
  | pushCheck (j : Nat)
  | pushWord (w : ι)
  | pushStore
  | drop
  | releaseSubmit
  -- the kernel and the consumer
  | kernel (a : Umem.Action)
  | kernelWrite (x : Nat) (b : UInt8)
  | consumer (a : Spsc.Action FeedEvent ι)

/-- The steps of `Umem` that are the kernel's. -/
def isKernel : Umem.Action → Bool
  | .kernelTake | .kernelPublish _ | .kernelPost _ _ => true
  | _ => false

variable {ι α : Type}

/-- The steps of `Spsc` that are the consumer's. -/
def isConsumer : Spsc.Action FeedEvent ι → Bool
  | .pop | .popCheck _ | .popWord _ _ | .popStore | .popQuery _ _ => true
  | _ => false

/-- A constructed handler. -/
def init (b : Nat → ι → α) (mem : Nat → UInt8) : State ι α where
  frames := Umem.init umemConfig
  ring := Spsc.init b
  mem := mem
  stopFlag := false
  pktsRx := 0
  pktsDropped := 0
  rx := .down
  received := []
  log := []

/-- A step of `Umem` or `XdpSocket`, after which the RX thread is at `rx`. -/
def State.onFrames (s : State ι α) (x : Libxdp) (a : Umem.Action) (rx : Rx) :
    Option (State ι α) :=
  (Umem.step x umemConfig s.frames a).map fun f => { s with frames := f, rx := rx }

section

variable [Fintype ι] [DecidableEq ι]

/-- A step of the ring, after which the RX thread is at `rx`. -/
def State.onRing (s : State ι α) (L : Spsc.TriviallyCopyable FeedEvent ι α)
    (a : Spsc.Action FeedEvent ι) (rx : Rx) : Option (State ι α) :=
  (Spsc.step L kRingCap s.ring a).map fun r => { s with ring := r, rx := rx }

/-- The inner loop is done with the frame `p`. -/
def State.finish (s : State ι α) (p : Parse) (refused : Option Nat) (rx : Rx) : State ι α :=
  { s with rx := rx, log := s.log ++ [⟨p, refused⟩] }

def step (x : Libxdp) (L : Spsc.TriviallyCopyable FeedEvent ι α) (s : State ι α) :
    Action ι → Option (State ι α)
  | .start =>
      match s.rx with
      | .down => some { s with stopFlag := false, rx := .starting }
      | _ => none
  | .populate =>
      match s.rx with
      | .starting => s.onFrames x .populate .priming
      | _ => none
  | .populateSubmit =>
      match s.rx with
      | .priming => s.onFrames x .populateSubmit .top
      | _ => none
  | .stop => some { s with stopFlag := true }
  | .join =>
      match s.rx with
      | .exited => some { s with rx := .down }
      | _ => none
  | .exit =>
      match s.rx with
      | .top => if s.stopFlag then some { s with rx := .exited } else none
      | _ => none
  | .burst rcvd =>
      match s.rx with
      | .top => s.onFrames x (.rxBurst kMaxBatch rcvd) .bursting
      | _ => none
  | .burstDone =>
      match s.rx with
      | .bursting =>
          -- nothing was held before, so `held` is `descs[0 .. n)` from here on
          (s.onFrames x .rxBurstRelease .received).map fun t =>
            { t with
              rx := if t.frames.held = [] then .polling else .received
              received := s.received ++ t.frames.held }
      | _ => none
  | .polled =>
      match s.rx with
      -- `UF_CPU_RELAX()` or `poll(&pfd, 1, 1)`, whose result is ignored; `continue`
      | .polling => some { s with rx := .top }
      | _ => none
  | .stamp ts =>
      match s.rx with
      | .received =>
          some { s with
            pktsRx := s.pktsRx + UInt64.ofNat s.frames.held.length
            rx := .handling ts s.frames.held }
      | _ => none
  | .next =>
      match s.rx with
      | .handling ts (d :: rest) => some { s with rx := .parsing ⟨d, ts, []⟩ rest }
      | .handling _ [] => s.onFrames x (.rxRelease s.frames.held []) .releasing
      | _ => none
  | .readByte =>
      match s.rx with
      | .parsing p rest =>
          match p.residue with
          | .read addr _ =>
              some { s with rx := .parsing { p with seen := p.seen ++ [s.mem addr] } rest }
          | _ => none
      | _ => none
  | .parsed =>
      match s.rx with
      | .parsing p rest =>
          match p.residue with
          -- `if (!pkt.is_udp()) continue;`
          | .done none => some (s.finish p none (.handling p.ts rest))
          | .done (some ev) => s.onRing L (.push ev) (.pushing p rest)
          | _ => none
      | _ => none
  | .pushCheck j =>
      match s.rx with
      | .pushing p rest =>
          (s.onRing L (.pushCheck j) (.pushing p rest)).map fun t =>
            match t.ring.prod with
            | .idle => t.finish p (some (t.ring.pushed.length - j)) (.refused p.ts rest)
            | _ => t
      | _ => none
  | .pushWord w =>
      match s.rx with
      | .pushing p rest => s.onRing L (.pushWord w) (.pushing p rest)
      | _ => none
  | .pushStore =>
      match s.rx with
      | .pushing p rest =>
          (s.onRing L .pushStore (.pushing p rest)).map fun t =>
            t.finish p none (.handling p.ts rest)
      | _ => none
  | .drop =>
      match s.rx with
      | .refused ts rest =>
          some { s with pktsDropped := s.pktsDropped + 1, rx := .handling ts rest }
      | _ => none
  | .releaseSubmit =>
      match s.rx with
      | .releasing => s.onFrames x .rxReleaseSubmit .top
      | _ => none
  | .kernel a => if isKernel a then s.onFrames x a s.rx else none
  | .kernelWrite addr b =>
      -- only into a frame the kernel took from the fill ring
      if s.frames.kernel.any fun a => umemConfig.frameOf a = addr / umemConfig.frameSize.toNat then
        some { s with mem := fun y => if y = addr then b else s.mem y }
      else none
  | .consumer a => if isConsumer a then s.onRing L a s.rx else none

end

end UltrafastFeed.Handler
