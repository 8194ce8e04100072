import UltrafastFeed.Packet.Model

/-!
# Packet — what the event is made of

One spec lemma per accessor says what it returns and that it stays
inside the frame; `buildEvent_runs` composes them. The accessors check
every header against `len`, but the number of payload bytes is the UDP
length field's word alone. So the event is a function of its own frame
exactly when that field does not reach past the frame
(`event_own_frame_iff`).
-/

namespace UltrafastFeed

open Lib Lib.Endian Lib.Reads

/-! ## Header fields -/

/-- `n` bytes of the memory from `addr` on. -/
def slice (m : Nat → UInt8) (addr n : Nat) : List UInt8 :=
  (List.range n).map fun i => m (addr + i)

theorem ntohs_toU16 (a b : UInt8) : (ntohs (toU16 [a, b])).toNat = 256 * a.toNat + b.toNat := by
  have ha := a.toNat_lt
  have hb := b.toNat_lt
  have hx : (toU16 [a, b]).toNat = a.toNat + 256 * b.toNat := by
    simp only [toU16, leNat, UInt16.toNat_ofNat']
    omega
  have hhi : (toU16 [a, b] <<< 8).toNat = a.toNat <<< 8 := by
    rw [UInt16.toNat_shiftLeft, hx]
    simp only [UInt16.reduceToNat, Nat.shiftLeft_eq, Nat.reduceMod, Nat.reducePow]
    omega
  have hlo : (toU16 [a, b] >>> 8).toNat = b.toNat := by
    rw [UInt16.toNat_shiftRight, hx]
    simp only [UInt16.reduceToNat, Nat.shiftRight_eq_div_pow, Nat.reduceMod, Nat.reducePow]
    omega
  rw [ntohs, UInt16.toNat_or, hhi, hlo, ← Nat.shiftLeft_add_eq_or_of_lt hb, Nat.shiftLeft_eq]
  omega

namespace Packet

variable {m : Nat → UInt8} {S : Nat → Prop} {pkt : Packet}

/-- `x` is a byte of the frame. -/
def Frame (pkt : Packet) (x : Nat) : Prop := pkt.data ≤ x ∧ x < pkt.data + pkt.len

/-- The IP header length field, in 32-bit words. -/
def ihl (m : Nat → UInt8) (pkt : Packet) : Nat := (m (pkt.data + 14)).toNat % 16

/-- The UDP header's length field. -/
def udpLength (m : Nat → UInt8) (pkt : Packet) : Nat :=
  256 * (m (pkt.data + (14 + 4 * pkt.ihl m) + 4)).toNat
    + (m (pkt.data + (14 + 4 * pkt.ihl m) + 5)).toNat

/-- What `udp()` checks. -/
def HasUdp (m : Nat → UInt8) (pkt : Packet) : Prop :=
  34 ≤ pkt.len ∧ m (pkt.data + 23) = 17 ∧ 14 + 4 * pkt.ihl m + 8 ≤ pkt.len

instance : Decidable (HasUdp m pkt) :=
  inferInstanceAs (Decidable (34 ≤ pkt.len ∧ m (pkt.data + 23) = 17 ∧ _))

/-- What `udp()` returns. -/
def udpAt (m : Nat → UInt8) (pkt : Packet) : Option Nat :=
  if HasUdp m pkt then some (pkt.data + (14 + 4 * pkt.ihl m)) else none

theorem ipHlen_eq (pkt : Packet) : ipHlen (m (pkt.data + 14)) = 4 * pkt.ihl m := by
  have hmask : ((m (pkt.data + 14)) &&& 0x0F).toNat = pkt.ihl m := by
    rw [UInt8.toNat_and, ihl]
    exact Nat.and_two_pow_sub_one_eq_mod _ 4
  rw [ipHlen, hmask, Nat.mul_comm]

theorem ip_eq (h : 34 ≤ pkt.len) : pkt.ip = some (pkt.data + 14) := by
  rw [ip, if_neg (by simp only [sizeofEthHeader, sizeofIpHeader]; omega)]
  rfl

/-! ## One spec lemma per accessor -/

theorem udp_runs (pkt : Packet) (hS : ∀ x, pkt.Frame x → S x) :
    Runs m S pkt.udp (pkt.udpAt m) := by
  by_cases hlen : 34 ≤ pkt.len
  · have hproto : Runs m S (byte (pkt.data + 14 + 9)) (m (pkt.data + 23)) :=
      runs_byte (hS _ ⟨by omega, by omega⟩)
    have hver : Runs m S (byte (pkt.data + 14)) (m (pkt.data + 14)) :=
      runs_byte (hS _ ⟨by omega, by omega⟩)
    rw [udp, ip_eq hlen]
    refine hproto.bind ?_
    by_cases h17 : m (pkt.data + 23) = 17
    · rw [if_neg (not_not.mpr h17)]
      refine hver.bind ?_
      rw [ipHlen_eq]
      by_cases hfit : 14 + 4 * pkt.ihl m + 8 ≤ pkt.len
      · rw [if_neg (by simp only [sizeofEthHeader, sizeofUdpHeader]; omega), udpAt,
          if_pos ⟨hlen, h17, hfit⟩]
        exact runs_pure
      · rw [if_pos (by simp only [sizeofEthHeader, sizeofUdpHeader]; omega), udpAt,
          if_neg fun h => hfit h.2.2]
        exact runs_pure
    · rw [if_pos h17, udpAt, if_neg fun h => h17 h.2.1]
      exact runs_pure
  · have hip : pkt.ip = none := by
      rw [ip, if_pos (by simp only [sizeofEthHeader, sizeofIpHeader]; omega)]
    rw [udp, hip, udpAt, if_neg fun h => hlen h.1]
    exact runs_pure

theorem isUdp_runs (pkt : Packet) (hS : ∀ x, pkt.Frame x → S x) :
    Runs m S pkt.isUdp (decide (HasUdp m pkt)) := by
  refine (udp_runs pkt hS).bind ?_
  rw [udpAt]
  by_cases h : HasUdp m pkt
  · rw [if_pos h, decide_eq_true h]
    exact runs_pure
  · rw [if_neg h, decide_eq_false h]
    exact runs_pure

theorem udp_runs_some (h : HasUdp m pkt) (hS : ∀ x, pkt.Frame x → S x) :
    Runs m S pkt.udp (some (pkt.data + (14 + 4 * pkt.ihl m))) := by
  have hrun : Runs m S pkt.udp (pkt.udpAt m) := udp_runs pkt hS
  rwa [udpAt, if_pos h] at hrun

theorem payload_runs (h : HasUdp m pkt) (hS : ∀ x, pkt.Frame x → S x) :
    Runs m S pkt.payload (some (pkt.data + (14 + 4 * pkt.ihl m) + 8)) := by
  have hlen : 34 ≤ pkt.len := h.1
  refine (udp_runs_some h hS).bind ?_
  rw [ip_eq hlen]
  refine runs_deref.bind ?_
  refine (runs_byte (hS _ ⟨by omega, by omega⟩)).bind ?_
  rw [ipHlen_eq, Nat.add_assoc pkt.data]
  exact runs_pure

theorem load16_runs {addr : Nat} (hS : ∀ i, i < 2 → S (addr + i)) :
    Runs m S (load16 addr) (toU16 [m addr, m (addr + 1)]) :=
  (runs_bytes hS).bind runs_pure

theorem load32_runs {addr : Nat} (hS : ∀ i, i < 4 → S (addr + i)) :
    Runs m S (load32 addr) (toU32 (slice m addr 4)) :=
  (runs_bytes hS).bind runs_pure

theorem payloadLen_runs (h : HasUdp m pkt) (hS : ∀ x, pkt.Frame x → S x) :
    Runs m S pkt.payloadLen (pkt.udpLength m - 8) := by
  have hfit : 14 + 4 * pkt.ihl m + 8 ≤ pkt.len := h.2.2
  refine (udp_runs_some h hS).bind ?_
  refine (load16_runs fun i hi => hS _ ⟨by omega, by omega⟩).bind ?_
  have hnum : (ntohs (toU16 [m (pkt.data + (14 + 4 * pkt.ihl m) + 4),
      m (pkt.data + (14 + 4 * pkt.ihl m) + 4 + 1)])).toNat = pkt.udpLength m := ntohs_toU16 _ _
  simp only [hnum, sizeofUdpHeader]
  by_cases hsmall : pkt.udpLength m < 8
  · rw [if_pos hsmall, Nat.sub_eq_zero_of_le (Nat.le_of_lt hsmall)]
    exact runs_pure
  · rw [if_neg hsmall]
    exact runs_pure

end Packet

section Event

open Packet

variable {m : Nat → UInt8} {S : Nat → Prop} {pkt : Packet}

/-! ## The header dereferences of `rx_loop` -/

/-- The header fields that `rx_loop` reads before the payload: source
port, destination port, source address. -/
structure Headers where
  srcPort : UInt16
  dstPort : UInt16
  srcIp : UInt32

/-- The inner loop up to `ev.src_ip = pkt.ip()->src_ip`. -/
def readHeaders (pkt : Packet) : Reads (Option Headers) := do
  if !(← pkt.isUdp) then return none
  let srcPort ← load16 (← deref (← pkt.udp))
  let dstPort ← load16 ((← deref (← pkt.udp)) + 2)
  let srcIp ← load32 ((← deref pkt.ip) + 12)
  return some { srcPort, dstPort, srcIp }

/-- The inner loop from `pkt.payload()` on. -/
def finishEvent (batchTs : UInt64) (pkt : Packet) : Option Headers → Reads (Option FeedEvent)
  | none => return none
  | some hdr => do
      let pay ← pkt.payload
      let plen ← pkt.payloadLen
      let injectNs ← readInjectNs pay plen
      let payloadLen := UInt16.ofNat (min plen kMaxPayload)
      let payload ← readPayload pay payloadLen
      return some {
        injectNs, receiveNs := batchTs, srcIp := hdr.srcIp, srcPort := ntohs hdr.srcPort,
        dstPort := ntohs hdr.dstPort, payloadLen, payload }

theorem buildEvent_eq_headers (ts : UInt64) (pkt : Packet) :
    buildEvent ts pkt = readHeaders pkt >>= finishEvent ts pkt := by
  rw [buildEvent, readHeaders, bind_assoc]
  congr 1
  funext b
  cases b with
  | false => rfl
  | true =>
      simp only [Bool.not_true, Bool.false_eq_true, if_false, bind_assoc, pure_bind, finishEvent]

/-- What the header reads return on a UDP frame. -/
def headersOf (m : Nat → UInt8) (pkt : Packet) : Headers :=
  let udpHdr := pkt.data + (14 + 4 * pkt.ihl m)
  { srcPort := toU16 [m udpHdr, m (udpHdr + 1)]
    dstPort := toU16 [m (udpHdr + 2), m (udpHdr + 2 + 1)]
    srcIp := toU32 (slice m (pkt.data + 26) 4) }

theorem readHeaders_runs (pkt : Packet) (hS : ∀ x, pkt.Frame x → S x) :
    Runs m S (readHeaders pkt) (if HasUdp m pkt then some (headersOf m pkt) else none) := by
  refine (isUdp_runs pkt hS).bind ?_
  by_cases h : HasUdp m pkt
  · obtain ⟨hlen, -, hfit⟩ := id h
    have hudp : Runs m S pkt.udp (some (pkt.data + (14 + 4 * pkt.ihl m))) := udp_runs_some h hS
    rw [decide_eq_true h, if_pos h]
    refine hudp.bind (runs_deref.bind ?_)
    refine (load16_runs fun i hi => hS _ ⟨by omega, by omega⟩).bind ?_
    refine hudp.bind (runs_deref.bind ?_)
    refine (load16_runs fun i hi => hS _ ⟨by omega, by omega⟩).bind ?_
    rw [ip_eq hlen]
    refine runs_deref.bind ?_
    exact (load32_runs fun i hi => hS _ ⟨by omega, by omega⟩).bind runs_pure
  · rw [decide_eq_false h, if_neg h]
    exact runs_pure

/-! ## The event -/

/-- The event `rx_loop` builds from a UDP frame. -/
def eventOf (m : Nat → UInt8) (batchTs : UInt64) (pkt : Packet) : FeedEvent :=
  let udpHdr := pkt.data + (14 + 4 * pkt.ihl m)
  let plen := pkt.udpLength m - 8
  { injectNs := if 8 ≤ plen then toU64 (slice m (udpHdr + 8) 8) else 0
    receiveNs := batchTs
    srcIp := toU32 (slice m (pkt.data + 26) 4)
    srcPort := ntohs (toU16 [m udpHdr, m (udpHdr + 1)])
    dstPort := ntohs (toU16 [m (udpHdr + 2), m (udpHdr + 3)])
    payloadLen := UInt16.ofNat (min plen kMaxPayload)
    payload := payloadOf (slice m (udpHdr + 8) (min plen kMaxPayload)) }

theorem readInjectNs_runs {a plen : Nat} (hS : ∀ i, i < plen → S (a + i)) :
    Runs m S (readInjectNs (some a) plen) (if 8 ≤ plen then toU64 (slice m a 8) else 0) := by
  by_cases h : 8 ≤ plen
  · simp only [readInjectNs, if_pos h]
    exact (runs_bytes fun i hi => hS i (by omega)).bind runs_pure
  · simp only [readInjectNs, if_neg h]
    exact runs_pure

theorem readPayload_runs {a n : Nat} (hn : n ≤ kMaxPayload) (hS : ∀ i, i < n → S (a + i)) :
    Runs m S (readPayload (some a) (UInt16.ofNat n)) (payloadOf (slice m a n)) := by
  have hnat : (UInt16.ofNat n).toNat = n := by
    rw [UInt16.toNat_ofNat', Nat.mod_eq_of_lt (by rw [kMaxPayload] at hn; omega)]
  have hpos : 0 < UInt16.ofNat n ↔ 0 < n := by
    rw [UInt16.lt_iff_toNat_lt, hnat]
    rfl
  by_cases h : 0 < n
  · simp only [readPayload, if_pos (hpos.mpr h), hnat]
    exact (runs_bytes hS).bind runs_pure
  · obtain rfl : n = 0 := by omega
    simp only [readPayload, if_neg (mt hpos.mp h)]
    exact runs_pure

/-- A frame that is not UDP is skipped. -/
theorem buildEvent_runs_none (ts : UInt64) (h : ¬ HasUdp m pkt)
    (hS : ∀ x, pkt.Frame x → S x) : Runs m S (buildEvent ts pkt) none := by
  rw [buildEvent_eq_headers]
  refine (readHeaders_runs pkt hS).bind ?_
  rw [if_neg h]
  exact runs_pure

/-- The event of a UDP frame, wherever the frame and its declared payload
may be read. -/
theorem buildEvent_runs (ts : UInt64) (h : HasUdp m pkt) (hS : ∀ x, pkt.Frame x → S x)
    (hpay : ∀ i, i < pkt.udpLength m - 8 → S (pkt.data + (14 + 4 * pkt.ihl m) + 8 + i)) :
    Runs m S (buildEvent ts pkt) (some (eventOf m ts pkt)) := by
  rw [buildEvent_eq_headers]
  refine (readHeaders_runs pkt hS).bind ?_
  rw [if_pos h]
  refine (payload_runs h hS).bind ((payloadLen_runs h hS).bind ?_)
  refine (readInjectNs_runs hpay).bind ?_
  refine (readPayload_runs (Nat.min_le_right _ _)
    fun i hi => hpay i (Nat.lt_of_lt_of_le hi (Nat.min_le_left _ _))).bind ?_
  exact runs_pure

/-- A payload range inside the frame: every read stays there. -/
theorem buildEvent_runs_frame (ts : UInt64) (h : HasUdp m pkt)
    (hin : 14 + 4 * pkt.ihl m + pkt.udpLength m ≤ pkt.len) :
    Runs m pkt.Frame (buildEvent ts pkt) (some (eventOf m ts pkt)) :=
  buildEvent_runs ts h (fun _ hx => hx) fun i hi => ⟨by omega, by omega⟩

theorem hasUdp_of_isUdp (h : pkt.isUdp.eval m = some true) : HasUdp m pkt := by
  have hrun : Runs m (fun _ => True) pkt.isUdp (decide (HasUdp m pkt)) :=
    isUdp_runs pkt fun _ _ => trivial
  rw [hrun.eval_eq, Option.some.injEq] at h
  exact of_decide_eq_true h

/-- **A `FeedEvent` is a function of its own frame exactly when the UDP
length field stays inside the frame.** For every memory and every
descriptor whose frame `is_udp()`: the payload range lies inside the
frame, every byte read for the event does, and every memory with the same
frame bytes gives the same event, if and only if the UDP datagram, of the
length its header declares, ends no later than the frame. -/
theorem event_own_frame_iff (m : Nat → UInt8) (ts addr : UInt64) (len : UInt32)
    (hudp : (framePacket addr len).isUdp.eval m = some true) :
    ((∃ p n, (framePacket addr len).payload.eval m = some (some p)
          ∧ (framePacket addr len).payloadLen.eval m = some n
          ∧ addr.toNat ≤ p ∧ p + n ≤ addr.toNat + len.toNat)
        ∧ (∀ x ∈ (buildEvent ts (framePacket addr len)).trace m,
            addr.toNat ≤ x ∧ x < addr.toNat + len.toNat)
        ∧ ∀ m' : Nat → UInt8,
            (∀ x, addr.toNat ≤ x → x < addr.toNat + len.toNat → m' x = m x) →
            (buildEvent ts (framePacket addr len)).eval m'
              = (buildEvent ts (framePacket addr len)).eval m)
      ↔ 14 + 4 * (framePacket addr len).ihl m + (framePacket addr len).udpLength m
          ≤ len.toNat := by
  have h : HasUdp m (framePacket addr len) := hasUdp_of_isUdp hudp
  obtain ⟨-, -, hfit⟩ := id h
  have hp := (payload_runs h fun _ hx => hx).eval_eq
  have hn := (payloadLen_runs h fun _ hx => hx).eval_eq
  constructor
  · rintro ⟨⟨p, n, hp', hn', -, hend⟩, -, -⟩
    rw [hp] at hp'
    rw [hn] at hn'
    cases hp'
    cases hn'
    simp only [framePacket] at hend hfit ⊢
    omega
  · intro hin
    have hrun := buildEvent_runs_frame ts h hin
    refine ⟨⟨_, _, hp, hn, ?_, ?_⟩, hrun.2, fun m' hm => ?_⟩
    · simp only [framePacket]
      omega
    · simp only [framePacket] at hfit hin ⊢
      omega
    · rw [hrun.eval_eq]
      exact (hrun.congr fun x hx => hm x hx.1 hx.2).eval_eq

/-! ## Whatever the memory does -/

/-- `payload_len` is clamped, whatever the frame holds and even if it
changes under the parser. -/
theorem buildEvent_payloadLen (ts : UInt64) (pkt : Packet) :
    (buildEvent ts pkt).Returns fun r => ∀ ev, r = some ev → ev.payloadLen.toNat ≤ kMaxPayload := by
  rw [buildEvent_eq_headers]
  refine returns_bind _ fun hdr => ?_
  cases hdr with
  | none => exact nofun
  | some hdr =>
      refine returns_bind _ fun pay => returns_bind _ fun plen => ?_
      refine returns_bind _ fun inject => returns_bind _ fun payload => ?_
      intro ev hev
      cases hev
      show (UInt16.ofNat (min plen kMaxPayload)).toNat ≤ kMaxPayload
      rw [UInt16.toNat_ofNat', kMaxPayload]
      omega

/-- Past the filter the inner loop always builds an event. -/
theorem buildEvent_filter (ts : UInt64) (pkt : Packet) :
    ∃ build : Reads (Option FeedEvent), build.Returns (fun r => r.isSome) ∧
      buildEvent ts pkt = pkt.isUdp >>= fun b => if !b then return none else build := by
  refine ⟨_, ?_, rfl⟩
  repeat refine returns_bind _ fun _ => ?_
  exact rfl

/-- `is_udp()` decides whether there is an event, whatever the memory did
between the reads. -/
theorem isUdp_of_buildEvent {ts : UInt64} {seen : List UInt8} {r : Option FeedEvent}
    (h : (buildEvent ts pkt).feed seen = .done r) : pkt.isUdp.feed seen = .done r.isSome := by
  obtain ⟨build, hsome, hbuild⟩ := buildEvent_filter ts pkt
  rw [hbuild] at h
  obtain ⟨b, cs, hb, hr⟩ := feed_bind h
  rw [hb]
  cases b with
  | false =>
      have hnone : done none = done r := (feed_done cs none).symm.trans hr
      cases hnone
      rfl
  | true =>
      have hret : (feed cs build).Returns (fun r => r.isSome) := hsome.feed cs
      rw [show feed cs build = done r from hr] at hret
      rw [show r.isSome = true from hret]

/-- A 42-byte Ethernet/IPv4/UDP header chain whose UDP length field is
`8 + declared`, followed in memory by `stale` bytes of an earlier packet. -/
def headerChain (declared stale : UInt8) (x : Nat) : UInt8 :=
  if x = 14 then 0x45
  else if x = 23 then 17
  else if x = 39 then 8 + declared
  else if 42 ≤ x then stale
  else 0

theorem event_own_frame_iff_exactLength :
    14 + 4 * (framePacket 0 50).ihl (headerChain 8 1)
        + (framePacket 0 50).udpLength (headerChain 8 1) ≤ (50 : UInt32).toNat
      ∧ ∀ m' : Nat → UInt8, (∀ x, 0 ≤ x → x < 50 → m' x = headerChain 8 1 x) →
          (buildEvent 0 (framePacket 0 50)).eval m'
            = (buildEvent 0 (framePacket 0 50)).eval (headerChain 8 1) := by
  have hin : 14 + 4 * (framePacket 0 50).ihl (headerChain 8 1)
      + (framePacket 0 50).udpLength (headerChain 8 1) ≤ (50 : UInt32).toNat := by decide
  exact ⟨hin, ((event_own_frame_iff (headerChain 8 1) 0 0 50 (by decide)).mpr hin).2.2⟩

/-- A 42-byte frame that declares 64 payload bytes: the event holds what
an earlier packet left behind it. -/
theorem event_shows_stale_bytes :
    (framePacket 0 42).isUdp.eval (headerChain 64 1) = some true
      ∧ (∀ x, x < 42 → headerChain 64 1 x = headerChain 64 2 x)
      ∧ (buildEvent 0 (framePacket 0 42)).eval (headerChain 64 1)
          ≠ (buildEvent 0 (framePacket 0 42)).eval (headerChain 64 2) := by
  refine ⟨by decide, fun x hx => ?_, ?_⟩
  · simp only [headerChain, if_neg (Nat.not_le.mpr hx)]
  · decide

end Event

end UltrafastFeed
