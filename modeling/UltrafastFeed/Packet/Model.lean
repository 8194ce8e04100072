import UltrafastFeed.FeedEvent
import UltrafastFeed.Lib.Reads

/-!
# Packet — the frame view and the event built from it

`packet.hpp` and the body of `rx_loop`'s inner loop. A `Packet` is a
pointer and a length into the UMEM region; an address here is a byte
offset into that region, and the null pointer is `none`. The accessors
are programs over `Reads`: they are called again wherever the source
calls them again (`pkt.udp()` is evaluated five times per event), so
that the model reads every byte the code reads, in its order.

Multi-byte fields are read as the host's little-endian words; `ntohs`
swaps them where the source does. `src_ip` stays in network order.
-/

namespace UltrafastFeed

open Lib Lib.Endian Lib.Reads

def sizeofEthHeader : Nat := 14
def sizeofIpHeader : Nat := 20
def sizeofUdpHeader : Nat := 8

def ntohs (x : UInt16) : UInt16 := x <<< 8 ||| x >>> 8

/-- A 16-bit field at `addr`. -/
def load16 (addr : Nat) : Reads UInt16 := do
  return toU16 (← bytes addr 2)

/-- A 32-bit field at `addr`. -/
def load32 (addr : Nat) : Reads UInt32 := do
  return toU32 (← bytes addr 4)

structure Packet where
  data : Nat
  len : Nat
  deriving DecidableEq, Repr

namespace Packet

def eth (pkt : Packet) : Option Nat :=
  if pkt.len < sizeofEthHeader then none else some pkt.data

def ip (pkt : Packet) : Option Nat :=
  if pkt.len < sizeofEthHeader + sizeofIpHeader then none
  else some (pkt.data + sizeofEthHeader)

/-- `(ip_hdr->version_ihl & 0x0F) * 4`. -/
def ipHlen (versionIhl : UInt8) : Nat := (versionIhl &&& 0x0F).toNat * 4

def udp (pkt : Packet) : Reads (Option Nat) :=
  match pkt.ip with
  | none => return none
  | some ipHdr => do
      let protocol ← byte (ipHdr + 9)
      if protocol ≠ 17 then return none
      let versionIhl ← byte ipHdr
      let udpOff := sizeofEthHeader + ipHlen versionIhl
      if pkt.len < udpOff + sizeofUdpHeader then return none
      return some (pkt.data + udpOff)

/-- `ip()` is dereferenced here without a null check. -/
def payload (pkt : Packet) : Reads (Option Nat) := do
  match ← pkt.udp with
  | none => return none
  | some _ =>
      let ipHdr ← deref pkt.ip
      let versionIhl ← byte ipHdr
      return some (pkt.data + sizeofEthHeader + ipHlen versionIhl + sizeofUdpHeader)

/-- The length comes from the UDP header alone: `len` is not consulted. -/
def payloadLen (pkt : Packet) : Reads Nat := do
  match ← pkt.udp with
  | none => return 0
  | some udpHdr =>
      let udpTotal := (ntohs (← load16 (udpHdr + 4))).toNat
      if udpTotal < sizeofUdpHeader then return 0
      return udpTotal - sizeofUdpHeader

def isUdp (pkt : Packet) : Reads Bool := do
  return (← pkt.udp).isSome

def isIpv4 (pkt : Packet) : Bool := pkt.ip.isSome

def etherTypeHost (pkt : Packet) : Reads UInt16 :=
  match pkt.eth with
  | none => return 0
  | some e => do return ntohs (← load16 (e + 12))

end Packet

/-- The view of the frame behind a descriptor: `base() + addr`, `len`. -/
def framePacket (addr : UInt64) (len : UInt32) : Packet :=
  ⟨addr.toNat, len.toNat⟩

/-- `std::memcpy(&ev.inject_ns, pay, 8)` if there are eight bytes. -/
def readInjectNs (pay : Option Nat) (plen : Nat) : Reads UInt64 :=
  match pay with
  | none => return 0
  | some a => if 8 ≤ plen then do return toU64 (← bytes a 8) else return 0

/-- `std::memcpy(ev.payload, pay, ev.payload_len)` into zeroed bytes. -/
def readPayload (pay : Option Nat) (n : UInt16) : Reads (Vector UInt8 kMaxPayload) :=
  match pay with
  | none => return payloadOf []
  | some a => if 0 < n then do return payloadOf (← bytes a n.toNat) else return payloadOf []

/-- One turn of `rx_loop`'s inner loop up to the push: `none` is the
`continue` of a frame that is not UDP. -/
def buildEvent (batchTs : UInt64) (pkt : Packet) : Reads (Option FeedEvent) := do
  if !(← pkt.isUdp) then return none
  let srcPort ← load16 (← deref (← pkt.udp))
  let dstPort ← load16 ((← deref (← pkt.udp)) + 2)
  let srcIp ← load32 ((← deref pkt.ip) + 12)
  let pay ← pkt.payload
  let plen ← pkt.payloadLen
  let injectNs ← readInjectNs pay plen
  let payloadLen := UInt16.ofNat (min plen kMaxPayload)
  let payload ← readPayload pay payloadLen
  return some {
    injectNs, receiveNs := batchTs, srcIp, srcPort := ntohs srcPort,
    dstPort := ntohs dstPort, payloadLen, payload }

end UltrafastFeed
