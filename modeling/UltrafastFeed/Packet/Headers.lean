import UltrafastFeed.Packet.Event

/-!
# Packet — what the header checks guarantee, and what they do not

Two questions about the accessors on ARBITRARY frames. Bounds: every
header an accessor returns, and every byte it reads, lies inside the
frame, whatever the IHL nibble says, because `udp()` checks the offset it
computes and every later recomputation reads the same nibble. Meaning:
the only discriminator consulted is the protocol byte, so the frames
accepted are UDP over IPv4 only where the other discriminators happen to
say so.
-/

namespace UltrafastFeed

open Lib Lib.Endian Lib.Reads

namespace Packet

variable {m : Nat → UInt8} {S : Nat → Prop} {pkt : Packet}

/-! ## The accessors on any frame -/

theorem eth_some {e : Nat} (h : pkt.eth = some e) : e = pkt.data ∧ 14 ≤ pkt.len := by
  rw [eth] at h
  split at h
  · cases h
  · rename_i hlen
    cases h
    exact ⟨rfl, Nat.le_of_not_lt hlen⟩

theorem ip_some {h : Nat} (hip : pkt.ip = some h) : h = pkt.data + 14 ∧ 34 ≤ pkt.len := by
  rw [ip] at hip
  split at hip
  · cases hip
  · rename_i hlen
    cases hip
    exact ⟨rfl, Nat.le_of_not_lt hlen⟩

theorem udpAt_some {u : Nat} (h : pkt.udpAt m = some u) :
    HasUdp m pkt ∧ u = pkt.data + (14 + 4 * pkt.ihl m) := by
  simp only [udpAt] at h
  split at h
  · rename_i hudp
    cases h
    exact ⟨hudp, rfl⟩
  · cases h

theorem udp_runs_none (h : ¬ HasUdp m pkt) (hS : ∀ x, pkt.Frame x → S x) :
    Runs m S pkt.udp none := by
  have hrun : Runs m S pkt.udp (pkt.udpAt m) := udp_runs pkt hS
  rwa [udpAt, if_neg h] at hrun

/-- What `payload()` returns. -/
def payloadAt (m : Nat → UInt8) (pkt : Packet) : Option Nat :=
  (pkt.udpAt m).map (· + sizeofUdpHeader)

theorem payload_runs_any (pkt : Packet) (hS : ∀ x, pkt.Frame x → S x) :
    Runs m S pkt.payload (pkt.payloadAt m) := by
  by_cases h : HasUdp m pkt
  · rw [payloadAt, udpAt, if_pos h]
    exact payload_runs h hS
  · rw [payloadAt, udpAt, if_neg h]
    exact (udp_runs_none h hS).bind runs_pure

theorem payloadLen_runs_any (pkt : Packet) (hS : ∀ x, pkt.Frame x → S x) :
    Runs m S pkt.payloadLen (if HasUdp m pkt then pkt.udpLength m - 8 else 0) := by
  by_cases h : HasUdp m pkt
  · rw [if_pos h]
    exact payloadLen_runs h hS
  · rw [if_neg h]
    exact (udp_runs_none h hS).bind runs_pure

theorem etherTypeHost_runs (pkt : Packet) (hS : ∀ x, pkt.Frame x → S x) :
    Runs m S pkt.etherTypeHost
      (if 14 ≤ pkt.len then ntohs (toU16 [m (pkt.data + 12), m (pkt.data + 12 + 1)]) else 0) := by
  by_cases hlen : 14 ≤ pkt.len
  · rw [etherTypeHost, eth, if_neg (by simp only [sizeofEthHeader]; omega), if_pos hlen]
    exact (load16_runs fun i hi => hS _ ⟨by omega, by omega⟩).bind runs_pure
  · rw [etherTypeHost, eth, if_pos (by simp only [sizeofEthHeader]; omega), if_neg hlen]
    exact runs_pure

end Packet

/-! ## Bounds -/

open Packet

variable {m : Nat → UInt8} {S : Nat → Prop} {pkt : Packet}

/-- **Header accesses are in bounds on every frame.** For every length and
every frame content: the headers that `eth()`, `ip()` and `udp()` return
lie inside the frame; so does every byte an accessor reads, and no
accessor dereferences null (`eth()`, `ip()` and `is_ipv4()` look at the
length alone); `payload()` points at most one past the frame; behind
`is_udp()` no accessor returns null; and so the header dereferences with
which `rx_loop` starts an event are never of null and stay inside the
frame. -/
theorem header_accesses_in_bounds (m : Nat → UInt8) (pkt : Packet) :
    (∀ e, pkt.eth = some e → ∀ i, i < sizeofEthHeader → pkt.Frame (e + i))
    ∧ (∀ h, pkt.ip = some h → ∀ i, i < sizeofIpHeader → pkt.Frame (h + i))
    ∧ (∀ u, pkt.udp.eval m = some (some u) → ∀ i, i < sizeofUdpHeader → pkt.Frame (u + i))
    ∧ (pkt.udp.eval m ≠ none ∧ ∀ x ∈ pkt.udp.trace m, pkt.Frame x)
    ∧ (pkt.payload.eval m ≠ none ∧ ∀ x ∈ pkt.payload.trace m, pkt.Frame x)
    ∧ (pkt.payloadLen.eval m ≠ none ∧ ∀ x ∈ pkt.payloadLen.trace m, pkt.Frame x)
    ∧ (pkt.isUdp.eval m ≠ none ∧ ∀ x ∈ pkt.isUdp.trace m, pkt.Frame x)
    ∧ (pkt.etherTypeHost.eval m ≠ none ∧ ∀ x ∈ pkt.etherTypeHost.trace m, pkt.Frame x)
    ∧ (∀ p, pkt.payload.eval m = some (some p) → pkt.data ≤ p ∧ p ≤ pkt.data + pkt.len)
    ∧ (pkt.isUdp.eval m = some true →
        pkt.ip.isSome ∧ (∃ u, pkt.udp.eval m = some (some u))
          ∧ ∃ p, pkt.payload.eval m = some (some p))
    ∧ ∀ ts, buildEvent ts pkt = (readHeaders pkt >>= finishEvent ts pkt)
        ∧ (readHeaders pkt).eval m ≠ none ∧ ∀ x ∈ (readHeaders pkt).trace m, pkt.Frame x := by
  have hframe : ∀ x, pkt.Frame x → pkt.Frame x := fun _ hx => hx
  have hudp : Runs m pkt.Frame pkt.udp (pkt.udpAt m) := udp_runs pkt hframe
  have hpay : Runs m pkt.Frame pkt.payload (pkt.payloadAt m) := payload_runs_any pkt hframe
  refine ⟨?_, ?_, ?_, hudp.safe, hpay.safe, (payloadLen_runs_any pkt hframe).safe,
    (isUdp_runs pkt hframe).safe, (etherTypeHost_runs pkt hframe).safe, ?_, ?_, ?_⟩
  · intro e he i hi
    obtain ⟨rfl, hlen⟩ := eth_some he
    rw [sizeofEthHeader] at hi
    exact ⟨by omega, by omega⟩
  · intro h hip i hi
    obtain ⟨rfl, hlen⟩ := ip_some hip
    rw [sizeofIpHeader] at hi
    exact ⟨by omega, by omega⟩
  · intro u hu i hi
    rw [hudp.eval_eq] at hu
    obtain ⟨⟨-, -, hfit⟩, rfl⟩ := udpAt_some (Option.some.inj hu)
    rw [sizeofUdpHeader] at hi
    exact ⟨by omega, by omega⟩
  · intro p hp
    rw [hpay.eval_eq] at hp
    obtain ⟨u, hu, rfl⟩ := Option.map_eq_some_iff.mp (Option.some.inj hp)
    obtain ⟨⟨-, -, hfit⟩, rfl⟩ := udpAt_some hu
    rw [sizeofUdpHeader]
    exact ⟨by omega, by omega⟩
  · intro his
    have h : HasUdp m pkt := hasUdp_of_isUdp his
    refine ⟨?_, ⟨_, (udp_runs_some h hframe).eval_eq⟩, ⟨_, (payload_runs h hframe).eval_eq⟩⟩
    rw [ip_eq h.1]
    rfl
  · intro ts
    exact ⟨buildEvent_eq_headers ts pkt, (readHeaders_runs pkt hframe).safe⟩

/-! ## What is accepted -/

namespace Packet

def etherType (m : Nat → UInt8) (pkt : Packet) : Nat :=
  256 * (m (pkt.data + 12)).toNat + (m (pkt.data + 13)).toNat

def ipVersion (m : Nat → UInt8) (pkt : Packet) : Nat := (m (pkt.data + 14)).toNat / 16

/-- The low 13 bits of `flags_fragment`. -/
def fragmentOffset (m : Nat → UInt8) (pkt : Packet) : Nat :=
  (256 * (m (pkt.data + 20)).toNat + (m (pkt.data + 21)).toNat) % 2 ^ 13

/-- The discriminators of an unfragmented IPv4 packet behind an untagged
Ethernet header. -/
def IsIpv4 (m : Nat → UInt8) (pkt : Packet) : Prop :=
  pkt.etherType m = 0x0800 ∧ pkt.ipVersion m = 4 ∧ 5 ≤ pkt.ihl m ∧ pkt.fragmentOffset m = 0

instance : Decidable (IsIpv4 m pkt) :=
  inferInstanceAs (Decidable (pkt.etherType m = 0x0800 ∧ pkt.ipVersion m = 4 ∧ _))

/-- UDP over IPv4 with all three headers inside the frame. -/
def IsUdpOverIpv4 (m : Nat → UInt8) (pkt : Packet) : Prop :=
  IsIpv4 m pkt ∧ m (pkt.data + 23) = 17 ∧
    sizeofEthHeader + 4 * pkt.ihl m + sizeofUdpHeader ≤ pkt.len

instance : Decidable (IsUdpOverIpv4 m pkt) :=
  inferInstanceAs (Decidable (IsIpv4 m pkt ∧ m (pkt.data + 23) = 17 ∧ _))

theorem isUdpOverIpv4_iff : IsUdpOverIpv4 m pkt ↔ HasUdp m pkt ∧ IsIpv4 m pkt := by
  constructor
  · rintro ⟨hip, h17, hfit⟩
    have hihl : 5 ≤ pkt.ihl m := hip.2.2.1
    simp only [sizeofEthHeader, sizeofUdpHeader] at hfit
    exact ⟨⟨by omega, h17, hfit⟩, hip⟩
  · rintro ⟨⟨-, h17, hfit⟩, hip⟩
    exact ⟨hip, h17, hfit⟩

theorem isUdp_iff : pkt.isUdp.eval m = some true ↔ HasUdp m pkt := by
  refine ⟨hasUdp_of_isUdp, fun h => ?_⟩
  rw [(isUdp_runs pkt fun _ hx => hx).eval_eq, decide_eq_true h]

end Packet

theorem buildEvent_some (ts : UInt64) {r : Option FeedEvent}
    (h : (buildEvent ts pkt).eval m = some r) : HasUdp m pkt ↔ r.isSome := by
  by_cases hudp : HasUdp m pkt
  · have hrun : Runs m (fun _ => True) (buildEvent ts pkt) (some (eventOf m ts pkt)) :=
      buildEvent_runs ts hudp (fun _ _ => trivial) fun _ _ => trivial
    rw [hrun.eval_eq] at h
    cases h
    exact ⟨fun _ => rfl, fun _ => hudp⟩
  · rw [(buildEvent_runs_none ts hudp fun _ hx => hx).eval_eq] at h
    cases h
    exact ⟨fun h => absurd h hudp, nofun⟩

/-- **`is_udp()` accepts exactly UDP over IPv4 on the frames where the
discriminators it never consults agree.** For every memory and every
frame: `is_udp()` holds exactly for UDP over IPv4, only such a frame
yields an event, and the UDP header does not overlap the fixed IP header,
if and only if the frame either fails the checks of `udp()` or carries
ether type `0x0800`, version 4, an IHL of at least 5 and fragment
offset 0. -/
theorem accepts_udp_over_ipv4_iff (m : Nat → UInt8) (pkt : Packet) :
    ((pkt.isUdp.eval m = some true ↔ IsUdpOverIpv4 m pkt)
        ∧ (∀ ts ev, (buildEvent ts pkt).eval m = some (some ev) → IsUdpOverIpv4 m pkt)
        ∧ ∀ u, pkt.udp.eval m = some (some u) →
            pkt.data + sizeofEthHeader + sizeofIpHeader ≤ u)
      ↔ (HasUdp m pkt → IsIpv4 m pkt) := by
  constructor
  · rintro ⟨his, -, -⟩ h
    exact (isUdpOverIpv4_iff.mp (his.mp (isUdp_iff.mpr h))).2
  · intro hcond
    have haccept : HasUdp m pkt → IsUdpOverIpv4 m pkt := fun h =>
      isUdpOverIpv4_iff.mpr ⟨h, hcond h⟩
    refine ⟨⟨fun his => haccept (isUdp_iff.mp his), fun h => ?_⟩, fun ts ev hev => ?_,
      fun u hu => ?_⟩
    · exact isUdp_iff.mpr (isUdpOverIpv4_iff.mp h).1
    · exact haccept ((buildEvent_some ts hev).mpr rfl)
    · rw [(udp_runs pkt fun _ hx => hx).eval_eq] at hu
      obtain ⟨h, rfl⟩ := udpAt_some (Option.some.inj hu)
      have hihl : 5 ≤ pkt.ihl m := (hcond h).2.2.1
      simp only [sizeofEthHeader, sizeofIpHeader]
      omega

/-- An ARP request, "who has 10.0.0.2", from a host whose hardware address
has `0x11` as its second byte. -/
def arpRequest : List UInt8 :=
  [0xFF, 0xFF, 0xFF, 0xFF, 0xFF, 0xFF, 0x02, 0x11, 0x22, 0x33, 0x44, 0x55, 0x08, 0x06,
    0x00, 0x01, 0x08, 0x00, 0x06, 0x04, 0x00, 0x01,
    0x02, 0x11, 0x22, 0x33, 0x44, 0x55, 10, 0, 0, 1, 0, 0, 0, 0, 0, 0, 10, 0, 0, 2]

/-- The ARP request is taken for UDP: the IHL nibble it shows is 0, so the
ARP header itself is read as the UDP header, with ports 1 and 2048. -/
theorem arp_yields_event :
    (framePacket 0 42).isUdp.eval (arpRequest.getD · 0) = some true
      ∧ ¬ IsUdpOverIpv4 (arpRequest.getD · 0) (framePacket 0 42)
      ∧ ((buildEvent 7 (framePacket 0 42)).eval (arpRequest.getD · 0)).map
          (Option.map fun ev => (ev.srcPort, ev.dstPort)) = some (some (1, 2048)) := by
  refine ⟨by decide, by decide, ?_⟩
  decide +kernel

end UltrafastFeed
