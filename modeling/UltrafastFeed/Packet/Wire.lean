import UltrafastFeed.Packet.Headers

/-!
# Packet — from the wire to the event

`UdpFrame` is a datagram as the network sees it: header fields, option
bytes, payload and Ethernet padding, with the fields that
`rx_loop` does not read left free. `wire` lays it out in bytes. What the
handler builds from ANY memory that holds these bytes is determined by
the datagram alone, wherever the options push the UDP header and however
much padding follows.
-/

namespace UltrafastFeed

open Lib Lib.Endian Lib.Reads

/-! ## Memory that holds a byte string -/

/-- From `addr` on, the memory holds `bs`. -/
def BytesAt (m : Nat → UInt8) (addr : Nat) (bs : List UInt8) : Prop :=
  ∀ i b, bs[i]? = some b → m (addr + i) = b

section BytesAt

variable {m : Nat → UInt8} {addr : Nat} {xs ys : List UInt8}

theorem bytesAt_append :
    BytesAt m addr (xs ++ ys) ↔ BytesAt m addr xs ∧ BytesAt m (addr + xs.length) ys := by
  constructor
  · intro h
    constructor
    · intro i b hi
      apply h
      rw [List.getElem?_append_left (List.getElem?_eq_some_iff.mp hi).1, hi]
    · intro i b hi
      rw [Nat.add_assoc]
      apply h
      rw [List.getElem?_append_right (Nat.le_add_right _ _), Nat.add_sub_cancel_left, hi]
  · rintro ⟨hx, hy⟩ i b hi
    rcases Nat.lt_or_ge i xs.length with hlt | hge
    · rw [List.getElem?_append_left hlt] at hi
      exact hx i b hi
    · rw [List.getElem?_append_right hge] at hi
      have hmem := hy _ b hi
      rwa [Nat.add_assoc, Nat.add_sub_cancel' hge] at hmem

theorem BytesAt.slice_take {n : Nat} (h : BytesAt m addr xs) (hn : n ≤ xs.length) :
    slice m addr n = xs.take n := by
  apply List.ext_getElem
  · simp [slice, hn]
  · intro i hi hi'
    simp only [slice, List.length_map, List.length_range] at hi
    have hget : xs[i]? = some xs[i] := List.getElem?_eq_getElem (by omega)
    simp only [slice, List.getElem_map, List.getElem_range, List.getElem_take]
    exact h i _ hget

theorem BytesAt.slice_eq (h : BytesAt m addr xs) : slice m addr xs.length = xs := by
  rw [h.slice_take (Nat.le_refl _), List.take_length]

theorem bytesAt_getD (bs : List UInt8) : BytesAt (bs.getD · 0) 0 bs := by
  intro i b hi
  simp [List.getD_eq_getElem?_getD, hi]

end BytesAt

/-! ## The datagram -/

/-- A 16-bit field in network order. -/
def beBytes (x : UInt16) : List UInt8 := [UInt8.ofNat (x.toNat / 256), UInt8.ofNat x.toNat]

/-- An Ethernet II / IPv4 / UDP frame. -/
structure UdpFrame where
  macs : Vector UInt8 12
  ihl : Nat
  ihl_range : 5 ≤ ihl ∧ ihl ≤ 15
  dscpEcn : UInt8
  totalLength : UInt16
  identification : UInt16
  flagsFragment : UInt16
  ttl : UInt8
  ipChecksum : UInt16
  /-- As it stands in the header. -/
  srcIp : Vector UInt8 4
  dstIp : Vector UInt8 4
  options : List UInt8
  options_length : options.length = 4 * (ihl - 5)
  srcPort : UInt16
  dstPort : UInt16
  udpChecksum : UInt16
  payload : List UInt8
  /-- The UDP length field holds the header and the payload. -/
  payload_fits : 8 + payload.length < 2 ^ 16
  padding : List UInt8

namespace UdpFrame

variable (f : UdpFrame)

/-- `EthHeader`, with ether type `0x0800`. -/
def ethBytes : List UInt8 := f.macs.toList ++ [0x08, 0x00]

/-- `IpHeader` up to the addresses: version 4, protocol 17. -/
def ipBytes : List UInt8 :=
  [UInt8.ofNat (4 * 16 + f.ihl), f.dscpEcn] ++ beBytes f.totalLength ++
    beBytes f.identification ++ beBytes f.flagsFragment ++ [f.ttl, 17] ++ beBytes f.ipChecksum

/-- `UdpHeader`. -/
def udpBytes : List UInt8 :=
  beBytes f.srcPort ++ beBytes f.dstPort ++ beBytes (UInt16.ofNat (8 + f.payload.length)) ++
    beBytes f.udpChecksum

def wire : List UInt8 :=
  f.ethBytes ++ (f.ipBytes ++ (f.srcIp.toList ++ (f.dstIp.toList ++ (f.options ++
    (f.udpBytes ++ (f.payload ++ f.padding))))))

@[simp] theorem ethBytes_length : f.ethBytes.length = 14 := by simp [ethBytes]

@[simp] theorem ipBytes_length : f.ipBytes.length = 12 := rfl

@[simp] theorem udpBytes_length : f.udpBytes.length = 8 := rfl

theorem wire_length :
    f.wire.length = 14 + 4 * f.ihl + 8 + f.payload.length + f.padding.length := by
  have hihl := f.ihl_range
  have hopt := f.options_length
  simp only [wire, List.length_append, ethBytes_length, ipBytes_length, udpBytes_length,
    Vector.length_toList]
  omega

end UdpFrame

theorem ntohs_beBytes (x : UInt16) : ntohs (toU16 (beBytes x)) = x := by
  have hx := x.toNat_lt
  apply UInt16.toNat_inj.mp
  rw [beBytes, ntohs_toU16, UInt8.toNat_ofNat', UInt8.toNat_ofNat']
  omega

/-! ## Its fields in memory -/

section Fields

open Packet

variable {m : Nat → UInt8} {f : UdpFrame} {pkt : Packet}

/-- The parts of a datagram, each where `Packet` looks for it. -/
structure Carries (m : Nat → UInt8) (pkt : Packet) (f : UdpFrame) : Prop where
  eth : BytesAt m pkt.data f.ethBytes
  ip : BytesAt m (pkt.data + 14) f.ipBytes
  srcIp : BytesAt m (pkt.data + 26) f.srcIp.toList
  udp : BytesAt m (pkt.data + (14 + 4 * f.ihl)) f.udpBytes
  payload : BytesAt m (pkt.data + (14 + 4 * f.ihl) + 8) f.payload
  len : pkt.len = f.wire.length

theorem carries_of_bytesAt (hm : BytesAt m pkt.data f.wire) (hlen : pkt.len = f.wire.length) :
    Carries m pkt f := by
  have hihl := f.ihl_range
  obtain ⟨heth, hm⟩ := bytesAt_append.mp hm
  obtain ⟨hip, hm⟩ := bytesAt_append.mp hm
  obtain ⟨hsrc, hm⟩ := bytesAt_append.mp hm
  obtain ⟨-, hm⟩ := bytesAt_append.mp hm
  obtain ⟨-, hm⟩ := bytesAt_append.mp hm
  obtain ⟨hudp, hm⟩ := bytesAt_append.mp hm
  obtain ⟨hpay, -⟩ := bytesAt_append.mp hm
  simp only [UdpFrame.ethBytes_length, UdpFrame.ipBytes_length, UdpFrame.udpBytes_length,
    Vector.length_toList, f.options_length] at hip hsrc hudp hpay
  have hoff : pkt.data + 14 + 12 + 4 + 4 + 4 * (f.ihl - 5) = pkt.data + (14 + 4 * f.ihl) := by
    omega
  rw [hoff] at hudp hpay
  exact ⟨heth, hip, hsrc, hudp, hpay, hlen⟩

theorem Carries.ihl_eq (h : Carries m pkt f) : pkt.ihl m = f.ihl := by
  have hihl := f.ihl_range
  have hbyte : m (pkt.data + 14) = UInt8.ofNat (4 * 16 + f.ihl) := h.ip 0 _ rfl
  rw [Packet.ihl, hbyte, UInt8.toNat_ofNat']
  omega

theorem Carries.hasUdp (h : Carries m pkt f) : HasUdp m pkt := by
  have hihl := f.ihl_range
  have hlen := h.len
  rw [f.wire_length] at hlen
  refine ⟨by omega, ?_, ?_⟩
  · exact h.ip 9 17 rfl
  · rw [h.ihl_eq]
    omega

theorem Carries.udpLength_eq (h : Carries m pkt f) :
    pkt.udpLength m = 8 + f.payload.length := by
  have hfits := f.payload_fits
  have hhi := h.udp 4 _ rfl
  have hlo := h.udp 5 _ rfl
  rw [udpLength, h.ihl_eq, hhi, hlo, UInt8.toNat_ofNat', UInt8.toNat_ofNat', UInt16.toNat_ofNat',
    Nat.mod_eq_of_lt hfits]
  omega

/-- The event that the datagram determines. -/
def UdpFrame.event (f : UdpFrame) (batchTs : UInt64) : FeedEvent where
  injectNs := if 8 ≤ f.payload.length then toU64 (f.payload.take 8) else 0
  receiveNs := batchTs
  srcIp := toU32 f.srcIp.toList
  srcPort := f.srcPort
  dstPort := f.dstPort
  payloadLen := UInt16.ofNat (min f.payload.length kMaxPayload)
  payload := payloadOf (f.payload.take (min f.payload.length kMaxPayload))

theorem Carries.eventOf_eq (h : Carries m pkt f) (ts : UInt64) :
    eventOf m ts pkt = f.event ts := by
  have hplen : pkt.udpLength m - 8 = f.payload.length := by
    rw [h.udpLength_eq]
    omega
  have hsrc : slice m (pkt.data + 26) 4 = f.srcIp.toList := by
    have hslice := h.srcIp.slice_eq
    rwa [Vector.length_toList] at hslice
  have hsport : ntohs (toU16 [m (pkt.data + (14 + 4 * f.ihl)),
      m (pkt.data + (14 + 4 * f.ihl) + 1)]) = f.srcPort := by
    rw [← ntohs_beBytes f.srcPort, beBytes, ← h.udp 0 _ rfl, ← h.udp 1 _ rfl]
    rfl
  have hdport : ntohs (toU16 [m (pkt.data + (14 + 4 * f.ihl) + 2),
      m (pkt.data + (14 + 4 * f.ihl) + 3)]) = f.dstPort := by
    rw [← ntohs_beBytes f.dstPort, beBytes, ← h.udp 2 _ rfl, ← h.udp 3 _ rfl]
  have hinject : (if 8 ≤ f.payload.length
      then toU64 (slice m (pkt.data + (14 + 4 * f.ihl) + 8) 8) else 0)
      = if 8 ≤ f.payload.length then toU64 (f.payload.take 8) else 0 := by
    split
    · rename_i h8
      rw [h.payload.slice_take h8]
    · rfl
  simp only [eventOf, UdpFrame.event, h.ihl_eq, hplen, hsrc, hsport, hdport, hinject,
    h.payload.slice_take (Nat.min_le_left _ _)]

end Fields

/-! ## The event of a datagram -/

/-- The 64-byte buffer that `SyntheticSender::send_one` sends: the
timestamp as the host stores it, then `0xAB`. -/
def sendOneBuf (ts : UInt64) : List UInt8 := u64Bytes ts ++ List.replicate (64 - 8) 0xAB

@[simp] theorem sendOneBuf_length (ts : UInt64) : (sendOneBuf ts).length = 64 := by
  simp [sendOneBuf]

theorem UdpFrame.event_payload (f : UdpFrame) (ts : UInt64) :
    (f.event ts).payload.toList
      = f.payload.take 64 ++ List.replicate (64 - f.payload.length) 0 := by
  have htake : f.payload.take (min f.payload.length kMaxPayload) = f.payload.take 64 := by
    rw [Nat.min_comm, ← List.take_eq_take_min]
    rfl
  have hle : (f.payload.take 64).length ≤ kMaxPayload := List.length_take_le 64 _
  rw [UdpFrame.event, htake, payloadOf_of_le hle, List.length_take]
  congr 2
  show 64 - min 64 f.payload.length = 64 - f.payload.length
  omega

/-- **Wire to event.** For every well-formed datagram, with any options,
any payload and any padding, and every memory that holds its frame,
`rx_loop` builds exactly one event: the ports in host order, the source
address as it stands in the header, the first 64 payload bytes followed
by zeros with their number, and the timestamp in the first eight payload
bytes if there are eight. For what `SyntheticSender::send_one` sends, the
timestamp is the sender's. -/
theorem wire_to_event (f : UdpFrame) (m : Nat → UInt8) (ts addr : UInt64) (len : UInt32)
    (hlen : len.toNat = f.wire.length) (hm : BytesAt m addr.toNat f.wire) :
    ∃ ev, (buildEvent ts (framePacket addr len)).eval m = some (some ev)
      ∧ ev.receiveNs = ts
      ∧ ev.srcPort = f.srcPort ∧ ev.dstPort = f.dstPort
      ∧ u32Bytes ev.srcIp = f.srcIp.toList
      ∧ ev.payloadLen.toNat = min f.payload.length 64
      ∧ ev.payload.toList = f.payload.take 64 ++ List.replicate (64 - f.payload.length) 0
      ∧ ev.injectNs.toNat = (if 8 ≤ f.payload.length then leNat (f.payload.take 8) else 0)
      ∧ ∀ sent, f.payload = sendOneBuf sent → ev.injectNs = sent ∧ ev.payloadLen = 64 := by
  have hc : Carries m (framePacket addr len) f := carries_of_bytesAt hm hlen
  have hrun : Runs m (fun _ => True) (buildEvent ts (framePacket addr len)) _ :=
    buildEvent_runs ts hc.hasUdp (fun _ _ => trivial) fun _ _ => trivial
  rw [hc.eventOf_eq] at hrun
  refine ⟨f.event ts, hrun.eval_eq, rfl, rfl, rfl, ?_, ?_, f.event_payload ts, ?_, ?_⟩
  · exact u32Bytes_toU32 (Vector.length_toList ..)
  · show (UInt16.ofNat (min f.payload.length kMaxPayload)).toNat = min f.payload.length 64
    rw [UInt16.toNat_ofNat', kMaxPayload]
    omega
  · show (if 8 ≤ f.payload.length then toU64 (f.payload.take 8) else 0).toNat = _
    split
    · rename_i h8
      exact toNat_toU64 (List.length_take_of_le h8)
    · rfl
  · intro sent hsent
    have htake : (sendOneBuf sent).take 8 = u64Bytes sent := by
      rw [sendOneBuf, List.take_left' (u64Bytes_length sent)]
    simp only [UdpFrame.event, hsent, sendOneBuf_length, htake, toU64_u64Bytes]
    exact ⟨rfl, rfl⟩

/-- What `send_one` sends at time `sent`, with IPv4 options and padding. -/
def sentFrame (sent : UInt64) : UdpFrame where
  macs := Vector.replicate 12 2
  ihl := 6
  ihl_range := by decide
  dscpEcn := 0
  totalLength := 96
  identification := 1
  flagsFragment := 0x4000
  ttl := 64
  ipChecksum := 0
  srcIp := #v[10, 0, 0, 1]
  dstIp := #v[10, 0, 0, 2]
  options := [1, 1, 1, 0]
  options_length := by decide
  srcPort := 40000
  dstPort := 9999
  udpChecksum := 0
  payload := sendOneBuf sent
  payload_fits := by simp
  padding := [0, 0]

theorem wire_to_event_sentFrame :
    ∃ ev, (buildEvent 9 (framePacket 0 112)).eval ((sentFrame 5).wire.getD · 0) = some (some ev)
      ∧ ev.dstPort = 9999 ∧ ev.injectNs = 5 ∧ ev.payloadLen = 64 := by
  obtain ⟨ev, hev, -, -, hport, -, -, -, -, hsent⟩ := wire_to_event (sentFrame 5)
    ((sentFrame 5).wire.getD · 0) 9 0 112 (by rw [UdpFrame.wire_length]; rfl) (bytesAt_getD _)
  obtain ⟨hns, hlen⟩ := hsent 5 rfl
  exact ⟨ev, hev, hport, hns, hlen⟩

end UltrafastFeed
