import UltrafastFeed.Packet.Event

/-!
# Packet — how much is read, and how far

Three bounds on the inner loop's reads, for EVERY frame. It ends within
`kMaxReads` reads. It dereferences no null pointer even if the bytes
behind the frame change while it runs: what the header checks rest on
lies inside the frame. And although `payload_len()` trusts the UDP length
field, the copies are clamped to `kMaxPayload`, so nothing is read
further than `kMaxPayload` bytes behind the frame.
-/

namespace UltrafastFeed

open Lib Lib.Endian Lib.Reads

/-- `is_udp()`, the two ports, the source address, `payload()`,
`payload_len()`, the timestamp and the payload. -/
def kMaxReads : Nat := 2 + (2 + 2) + (2 + 2) + 4 + (2 + 1) + (2 + 2) + 8 + kMaxPayload

section Within

variable (pkt : Packet)

theorem byte_within (addr : Nat) : (byte addr).Within 1 := fun _ => trivial

theorem load16_within (addr : Nat) : (load16 addr).Within 2 :=
  (within_bytes addr 2).bind fun _ => within_done 0 _

theorem load32_within (addr : Nat) : (load32 addr).Within 4 :=
  (within_bytes addr 4).bind fun _ => within_done 0 _

theorem deref_within (p : Option Nat) : (deref p).Within 0 := by
  cases p <;> trivial

namespace Packet

theorem udp_within : pkt.udp.Within 2 := by
  rw [udp]
  split
  · exact within_done 2 _
  · refine (byte_within _).bind fun protocol => ?_
    split
    · exact within_done 1 _
    · refine (byte_within _).bind fun versionIhl => ?_
      dsimp only
      split <;> exact within_done 0 _

theorem isUdp_within : pkt.isUdp.Within 2 :=
  pkt.udp_within.bind fun _ => within_done 0 _

theorem payload_within : pkt.payload.Within 3 := by
  refine pkt.udp_within.bind fun u => ?_
  cases u with
  | none => exact within_done 1 _
  | some u => exact (deref_within _).bind fun _ => (byte_within _).bind fun _ => within_done 0 _

theorem payloadLen_within : pkt.payloadLen.Within 4 := by
  refine pkt.udp_within.bind fun u => ?_
  cases u with
  | none => exact within_done 2 _
  | some u =>
      refine (load16_within _).bind fun n => ?_
      dsimp only
      split <;> exact within_done 0 _

end Packet

theorem readInjectNs_within (pay : Option Nat) (plen : Nat) : (readInjectNs pay plen).Within 8 := by
  cases pay with
  | none => exact within_done 8 _
  | some a =>
      simp only [readInjectNs]
      split
      · exact (within_bytes a 8).bind fun _ => within_done 0 _
      · exact within_done 8 _

theorem readPayload_within (pay : Option Nat) (plen : Nat) :
    (readPayload pay (UInt16.ofNat (min plen kMaxPayload))).Within kMaxPayload := by
  have hlen : (UInt16.ofNat (min plen kMaxPayload)).toNat ≤ kMaxPayload := by
    rw [UInt16.toNat_ofNat', kMaxPayload]
    omega
  cases pay with
  | none => exact within_done _ _
  | some a =>
      simp only [readPayload]
      split
      · exact ((within_bytes a _).mono hlen).bind fun _ => within_done 0 _
      · exact within_done _ _

/-- **The inner loop's body reads at most `kMaxReads` bytes.** -/
theorem buildEvent_within (ts : UInt64) : (buildEvent ts pkt).Within kMaxReads := by
  show (buildEvent ts pkt).Within 93
  refine pkt.isUdp_within.bind fun b => ?_
  cases b with
  | false => exact within_done _ _
  | true =>
      refine pkt.udp_within.bind fun u => (deref_within u).bind fun _ => ?_
      refine (load16_within _).bind fun _ => ?_
      refine pkt.udp_within.bind fun u => (deref_within u).bind fun _ => ?_
      refine (load16_within _).bind fun _ => (deref_within _).bind fun _ => ?_
      refine (load32_within _).bind fun _ => pkt.payload_within.bind fun pay => ?_
      refine pkt.payloadLen_within.bind fun plen => (readInjectNs_within pay plen).bind fun _ => ?_
      exact (readPayload_within pay plen).bind fun _ => within_done 0 _

end Within

/-! ## No null pointer, whatever happens behind the frame -/

section Defined

open Packet

variable {m : Nat → UInt8} {S : Nat → Prop} {pkt : Packet}

theorem readInjectNs_defined (pay : Option Nat) (plen : Nat) :
    (readInjectNs pay plen).Defined m S := by
  cases pay with
  | none => trivial
  | some a =>
      simp only [readInjectNs]
      split
      · exact (defined_bytes a 8).bind fun _ => trivial
      · trivial

theorem readPayload_defined (pay : Option Nat) (n : UInt16) : (readPayload pay n).Defined m S := by
  cases pay with
  | none => trivial
  | some a =>
      simp only [readPayload]
      split
      · exact (defined_bytes a _).bind fun _ => trivial
      · trivial

/-- The header reads stay inside the frame, and the payload reads
dereference nothing that was not checked. -/
theorem buildEvent_defined (m : Nat → UInt8) (ts : UInt64) (pkt : Packet) :
    (buildEvent ts pkt).Defined m pkt.Frame := by
  have hframe : ∀ x, pkt.Frame x → pkt.Frame x := fun _ hx => hx
  rw [buildEvent_eq_headers]
  refine (readHeaders_runs pkt hframe).defined_bind ?_
  by_cases h : HasUdp m pkt
  · rw [if_pos h]
    refine (payload_runs h hframe).defined_bind ((payloadLen_runs h hframe).defined_bind ?_)
    refine (readInjectNs_defined _ _).bind fun _ => ?_
    exact (readPayload_defined _ _).bind fun _ => trivial
  · rw [if_neg h]
    trivial

/-! ## How far the reads go -/

/-- The frame and `kMaxPayload` bytes behind it. -/
def Packet.Near (pkt : Packet) (x : Nat) : Prop :=
  pkt.data ≤ x ∧ x < pkt.data + pkt.len + kMaxPayload

theorem readInjectNs_runs_clamped {a plen : Nat}
    (hS : ∀ i, i < min plen kMaxPayload → S (a + i)) :
    Runs m S (readInjectNs (some a) plen) (if 8 ≤ plen then toU64 (slice m a 8) else 0) := by
  by_cases h : 8 ≤ plen
  · simp only [readInjectNs, if_pos h]
    refine (runs_bytes fun i hi => hS i ?_).bind runs_pure
    rw [kMaxPayload]
    omega
  · simp only [readInjectNs, if_neg h]
    exact runs_pure

/-- What the inner loop makes of any frame, and what it reads for it. -/
theorem buildEvent_runs_near (m : Nat → UInt8) (ts : UInt64) (pkt : Packet) :
    Runs m pkt.Near (buildEvent ts pkt)
      (if HasUdp m pkt then some (eventOf m ts pkt) else none) := by
  have hnear : ∀ x, pkt.Frame x → pkt.Near x := fun x hx => ⟨hx.1, by have := hx.2; omega⟩
  by_cases h : HasUdp m pkt
  · have hfit : 14 + 4 * pkt.ihl m + 8 ≤ pkt.len := h.2.2
    have hpay : ∀ i, i < min (pkt.udpLength m - 8) kMaxPayload →
        pkt.Near (pkt.data + (14 + 4 * pkt.ihl m) + 8 + i) :=
      fun i hi => ⟨by omega, by omega⟩
    rw [if_pos h, buildEvent_eq_headers]
    refine (readHeaders_runs pkt hnear).bind ?_
    rw [if_pos h]
    refine (payload_runs h hnear).bind ((payloadLen_runs h hnear).bind ?_)
    refine (readInjectNs_runs_clamped hpay).bind ?_
    exact (readPayload_runs (Nat.min_le_right _ _) hpay).bind runs_pure
  · rw [if_neg h]
    exact buildEvent_runs_none ts h hnear

/-- **The parser reads at most 64 bytes past a frame.** For every memory
and every descriptor, whatever the UDP length field claims: the inner
loop dereferences no null pointer and ends after at most `kMaxReads`
reads; all of them lie between the frame's first byte and `kMaxPayload`
bytes behind its last, which need not be mapped; the outcome depends on no
other byte; and if the frame leaves that many bytes of its UMEM frame
unused, no read leaves the UMEM frame. -/
theorem overread_bounded (m : Nat → UInt8) (ts addr : UInt64) (len : UInt32) :
    (buildEvent ts (framePacket addr len)).eval m ≠ none
      ∧ ((buildEvent ts (framePacket addr len)).trace m).length ≤ kMaxReads
      ∧ (∀ x ∈ (buildEvent ts (framePacket addr len)).trace m,
          addr.toNat ≤ x ∧ x < addr.toNat + len.toNat + 64)
      ∧ (∀ m' : Nat → UInt8,
          (∀ x, addr.toNat ≤ x → x < addr.toNat + len.toNat + 64 → m' x = m x) →
          (buildEvent ts (framePacket addr len)).eval m'
            = (buildEvent ts (framePacket addr len)).eval m)
      ∧ ∀ frameSize, addr.toNat % frameSize + len.toNat + 64 ≤ frameSize →
          ∀ x ∈ (buildEvent ts (framePacket addr len)).trace m,
            x / frameSize = addr.toNat / frameSize := by
  have hrun := buildEvent_runs_near m ts (framePacket addr len)
  obtain ⟨hdef, htrace⟩ := hrun.safe
  refine ⟨hdef, (buildEvent_within _ ts).trace_length m, htrace, fun m' hm => ?_, ?_⟩
  · rw [hrun.eval_eq]
    exact (hrun.congr fun x hx => hm x hx.1 hx.2).eval_eq
  · intro frameSize hroom x hx
    obtain ⟨hlo, hhi⟩ : addr.toNat ≤ x ∧ x < addr.toNat + len.toNat + 64 := htrace x hx
    have hsplit := Nat.div_add_mod addr.toNat frameSize
    have hpos : 0 < frameSize := by omega
    apply Nat.div_eq_of_lt_le
    · rw [Nat.mul_comm]
      omega
    · rw [Nat.succ_mul, Nat.mul_comm]
      omega

end Defined

end UltrafastFeed
