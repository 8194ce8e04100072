import UltrafastFeed.Clock
import UltrafastFeed.Handler.Contents
import UltrafastFeed.Packet.Wire

/-!
# Pipeline — the latency is true

`SyntheticSender` and `FeedHandler` read the same CLOCK_MONOTONIC: the
sender writes its reading into the datagram just before `sendto`, the RX
thread stamps a batch after `rx_burst` has returned it, and the consumer
subtracts. Here the sender and the clock run beside the handler, its
kernel and its consumer. A datagram can be anywhere in between; what
makes the differences meaningful is the order of the three readings.

NETWORK. It may lose, delay, repeat and reorder datagrams, and it may
deliver anything else: what is said about the sender's timestamp is said
of the frames that hold a datagram of the sender.
-/

namespace UltrafastFeed.Pipeline

open Lib Lib.Run Lib.Endian Umem Handler Packet

variable {ι α : Type}

/-! ## Model -/

structure State (ι α : Type) where
  /-- CLOCK_MONOTONIC in nanoseconds. -/
  now : Nat
  /-- Inside `send_one`: the timestamp in its buffer. -/
  sender : Option UInt64
  /-- The timestamps of the datagrams that `sendto` took. -/
  sent : List UInt64
  handler : Handler.State ι α

inductive Action (ι : Type) where
  | tick (d : Nat)
  | sendOne
  | sendto (ok : Bool)
  | handler (a : Handler.Action ι)

/-- The RX thread stamps its batch with the clock. -/
def onTime (now : Nat) : Handler.Action ι → Bool
  | .stamp ts => ts = clockNs (clockGettime now)
  | _ => true

def init (now : Nat) (b : Nat → ι → α) (mem : Nat → UInt8) : State ι α :=
  ⟨now, none, [], Handler.init b mem⟩

def step [Fintype ι] [DecidableEq ι] (x : Libxdp) (L : Spsc.TriviallyCopyable FeedEvent ι α)
    (w : State ι α) : Action ι → Option (State ι α)
  | .tick d => some { w with now := w.now + d }
  | .sendOne =>
      match w.sender with
      | none => some { w with sender := some (clockNs (clockGettime w.now)) }
      | some _ => none
  | .sendto ok =>
      match w.sender with
      -- if `sendto` fails, `send_one` throws
      | some ts => some { w with sender := none, sent := if ok then w.sent ++ [ts] else w.sent }
      | none => none
  | .handler a =>
      if onTime w.now a then
        (Handler.step x L w.handler a).map fun h => { w with handler := h }
      else none

/-- The steps considered: the clock does not wrap, `start()` is not called
again, and a posted frame leaves `kMaxPayload` bytes of its UMEM frame
unused. -/
def Proper (w : State ι α) : Action ι → Prop
  | .tick d => w.now + d < 2 ^ 64
  | .handler a => a.Calm
  | _ => True

instance (w : State ι α) : (a : Action ι) → Decidable (Proper w a)
  | .tick d => inferInstanceAs (Decidable (w.now + d < 2 ^ 64))
  | .sendOne | .sendto _ => .isTrue trivial
  | .handler a => inferInstanceAs (Decidable a.Calm)

/-- A frame that the kernel posted, when, and the timestamps of the
datagrams sent until then. -/
structure Posting where
  frame : Arrival
  time : Nat
  sent : List UInt64

/-- The posting that a step is. -/
def posting : Action ι → State ι α → Option Posting
  | .handler a, w => (arrival a w.handler).map fun r => ⟨r, w.now, w.sent⟩
  | _, _ => none

/-- The frame holds the datagram that `send_one` stamped `ts` and sent. -/
def Posting.Holds (p : Posting) (ts : UInt64) : Prop :=
  ts ∈ p.sent ∧ ∃ f : UdpFrame, Carries p.frame.mem p.frame.packet f ∧ f.payload = sendOneBuf ts

theorem event_receiveNs {a : Arrival} {t : UInt64} {ev : FeedEvent} (hev : a.event t = some ev) :
    ev.receiveNs = t := by
  obtain ⟨-, heq⟩ := Option.ite_none_right_eq_some.mp hev
  cases heq
  rfl

/-- The event of the sender's datagram. -/
theorem Posting.Holds.event {p : Posting} {ts t : UInt64} {ev : FeedEvent} (h : p.Holds ts)
    (hev : p.frame.event t = some ev) : ev.injectNs = ts ∧ ev.payloadLen = 64 := by
  obtain ⟨-, f, hc, hpay⟩ := h
  obtain ⟨-, hev⟩ := Option.ite_none_right_eq_some.mp hev
  rw [hc.eventOf_eq] at hev
  cases hev
  have htake : (sendOneBuf ts).take 8 = u64Bytes ts := by
    rw [sendOneBuf, List.take_left' (u64Bytes_length ts)]
  simp only [UdpFrame.event, hpay, sendOneBuf_length, htake, toU64_u64Bytes]
  exact ⟨rfl, rfl⟩

/-! ## Readings are in order -/

/-- The timestamp of the batch in the inner loop. -/
def batchTs : Rx → Option UInt64
  | .handling ts _ => some ts
  | .parsing p _ => some p.ts
  | .pushing p _ => some p.ts
  | .refused ts _ => some ts
  | _ => none

/-- Of the frame `posts[i]`, with the log's entry for it at `i`. -/
structure Timed (now : Nat) (posts : List Posting) (s : Handler.State ι α) : Prop where
  posted : ∀ p ∈ posts, p.time ≤ now
  sent : ∀ p ∈ posts, ∀ ts ∈ p.sent, ts.toNat ≤ p.time
  past : ∀ e ∈ s.log, e.parse.ts.toNat ≤ now
  ordered : s.log.Pairwise fun e e' => e.parse.ts ≤ e'.parse.ts
  caused : ∀ (i : Nat) (e : Handled) (p : Posting), s.log[i]? = some e → posts[i]? = some p →
    p.time ≤ e.parse.ts.toNat
  batch : ∀ ts, batchTs s.rx = some ts → ts.toNat ≤ now ∧ (∀ e ∈ s.log, e.parse.ts ≤ ts) ∧
    ∀ (i : Nat) (p : Posting), i < s.log.length + (pendingAt s.frames.held s.rx).length →
      posts[i]? = some p → p.time ≤ ts.toNat

section Timed

variable {now : Nat} {posts : List Posting} {s s' : Handler.State ι α}

/-- A step that finishes no frame and stamps no batch. -/
theorem Timed.quiet (h : Timed now posts s) (hlog : s'.log = s.log)
    (hbatch : batchTs s'.rx = none ∨ batchTs s'.rx = batchTs s.rx ∧
      pendingAt s'.frames.held s'.rx = pendingAt s.frames.held s.rx) : Timed now posts s' where
  posted := h.posted
  sent := h.sent
  past := by rw [hlog]; exact h.past
  ordered := by rw [hlog]; exact h.ordered
  caused := by rw [hlog]; exact h.caused
  batch ts hts := by
    rcases hbatch with hnone | ⟨hsame, hpend⟩
    · rw [hnone] at hts
      cases hts
    · rw [hsame] at hts
      rw [hlog, hpend]
      exact h.batch ts hts

/-- The whole batch gets the clock's reading, and every frame in it has
been posted before. -/
theorem Timed.stamp (h : Timed now posts s) {ts : UInt64} (hts : ts.toNat = now)
    (hlog : s'.log = s.log) (hbatch : batchTs s'.rx = some ts) : Timed now posts s' where
  posted := h.posted
  sent := h.sent
  past := by rw [hlog]; exact h.past
  ordered := by rw [hlog]; exact h.ordered
  caused := by rw [hlog]; exact h.caused
  batch ts' hts' := by
    rw [hbatch] at hts'
    cases hts'
    refine ⟨Nat.le_of_eq hts, fun e he => ?_, fun i p _ hp => ?_⟩
    · rw [hlog] at he
      rw [UInt64.le_iff_toNat_le, hts]
      exact h.past e he
    · rw [hts]
      exact h.posted p (List.mem_of_getElem? hp)

/-- The inner loop is done with the first pending frame. -/
theorem Timed.finish (h : Timed now posts s) {p : Parse} {rest : List RxDesc}
    {refused : Option Nat}
    (hts : batchTs s.rx = some p.ts) (hpend : pendingAt s.frames.held s.rx = p.desc :: rest)
    (hlog : s'.log = s.log ++ [⟨p, refused⟩]) (hts' : batchTs s'.rx = some p.ts)
    (hpend' : pendingAt s'.frames.held s'.rx = rest) : Timed now posts s' := by
  obtain ⟨hnow, hle, hposted⟩ := h.batch p.ts hts
  rw [hpend, List.length_cons] at hposted
  refine ⟨h.posted, h.sent, ?_, ?_, ?_, ?_⟩
  · rw [hlog]
    intro e he
    rcases List.mem_append.mp he with he | he
    · exact h.past e he
    · rw [List.mem_singleton.mp he]
      exact hnow
  · rw [hlog]
    refine List.pairwise_append.mpr ⟨h.ordered, List.pairwise_singleton _ _, fun e he e' he' => ?_⟩
    rw [List.mem_singleton.mp he']
    exact hle e he
  · rw [hlog]
    intro i e q hi hq
    rcases Nat.lt_or_ge i s.log.length with hlt | hge
    · rw [List.getElem?_append_left hlt] at hi
      exact h.caused i e q hi hq
    · rw [List.getElem?_append_right hge] at hi
      have hzero : i - s.log.length = 0 := by
        have hbound := (List.getElem?_eq_some_iff.mp hi).1
        rw [List.length_singleton] at hbound
        omega
      rw [hzero] at hi
      cases hi
      exact hposted i q (by omega) hq
  · intro ts hts''
    rw [hts'] at hts''
    cases hts''
    refine ⟨hnow, ?_, ?_⟩
    · rw [hlog]
      intro e he
      rcases List.mem_append.mp he with he | he
      · exact hle e he
      · rw [List.mem_singleton.mp he]
        exact UInt64.le_refl _
    · rw [hlog, hpend', List.length_append, List.length_singleton]
      exact fun i q hi hq => hposted i q (by omega) hq

/-- One more frame arrives, behind all that are pending. -/
theorem Timed.post (h : Timed now posts s) {new : Posting} (htime : new.time = now)
    (hsent : ∀ ts ∈ new.sent, ts.toNat ≤ now)
    (hlen : s.log.length + (pendingAt s.frames.held s.rx).length ≤ posts.length)
    (hlog : s'.log = s.log) (hrx : s'.rx = s.rx) (hheld : s'.frames.held = s.frames.held) :
    Timed now (posts ++ [new]) s' := by
  have hold : ∀ {i p}, i < posts.length → (posts ++ [new])[i]? = some p → posts[i]? = some p :=
    fun hi hp => by rwa [List.getElem?_append_left hi] at hp
  refine ⟨?_, ?_, ?_, ?_, ?_, ?_⟩
  · refine List.forall_mem_append.mpr ⟨h.posted, fun p hp => ?_⟩
    rw [List.mem_singleton.mp hp, htime]
  · refine List.forall_mem_append.mpr ⟨h.sent, fun p hp => ?_⟩
    rw [List.mem_singleton.mp hp, htime]
    exact hsent
  · rw [hlog]
    exact h.past
  · rw [hlog]
    exact h.ordered
  · rw [hlog]
    intro i e p hi hp
    have hbound := (List.getElem?_eq_some_iff.mp hi).1
    exact h.caused i e p hi (hold (by omega) hp)
  · rw [hlog, hrx, hheld]
    intro ts hts
    obtain ⟨hnow, hle, hposted⟩ := h.batch ts hts
    exact ⟨hnow, hle, fun i p hi hp => hposted i p hi (hold (by omega) hp)⟩

/-- Time passes. -/
theorem Timed.mono (h : Timed now posts s) {now' : Nat} (hnow : now ≤ now') :
    Timed now' posts s where
  posted p hp := Nat.le_trans (h.posted p hp) hnow
  sent := h.sent
  past e he := Nat.le_trans (h.past e he) hnow
  ordered := h.ordered
  caused := h.caused
  batch ts hts := by
    obtain ⟨hle, hrest⟩ := h.batch ts hts
    exact ⟨Nat.le_trans hle hnow, hrest⟩

end Timed

/-! ## Every step -/

section Steps

variable [Fintype ι] [DecidableEq ι]
variable {x : Libxdp} {L : Spsc.TriviallyCopyable FeedEvent ι α} {posts : List Posting}

/-- The postings, as the handler sees them. -/
def frames (posts : List Posting) : List Arrival := posts.map Posting.frame

theorem timed_handler {now : Nat} {sent : List UInt64} {s s' : Handler.State ι α}
    {a : Handler.Action ι} (hflow : Flow x L (frames posts) s) (h : Timed now posts s)
    (hnow : now < 2 ^ 64) (hsent : ∀ ts ∈ sent, ts.toNat ≤ now) (ha : a.Calm)
    (htime : onTime now a = true) (hs : Handler.step x L s a = some s') :
    Timed now (posts ++ ((arrival a s').map fun r => Posting.mk r now sent).toList) s' := by
  have hquiet : arrival a s' = none → Timed now posts s' →
      Timed now (posts ++ ((arrival a s').map fun r => Posting.mk r now sent).toList) s' := by
    intro hnone h'
    rw [hnone, Option.map_none, Option.toList_none, List.append_nil]
    exact h'
  cases step_moves hs with
  | start => exact ha.elim
  | populate | populateSubmit | join | exit | burst | polled | release | releaseSubmit =>
      exact hquiet rfl (h.quiet rfl (.inl rfl))
  | stop | kernelWrite | consumer => exact hquiet rfl (h.quiet rfl (.inr ⟨rfl, rfl⟩))
  | @burstDone f hrx hf =>
      refine hquiet rfl (h.quiet rfl (.inl ?_))
      dsimp only
      split <;> rfl
  | @stamp ts hrx =>
      have hts : ts.toNat = now := by
        rw [of_decide_eq_true htime]
        exact clockNs_toNat hnow
      exact hquiet rfl (h.stamp hts rfl rfl)
  | nextFrame hrx | readByte hrx _ | push hrx _ _ | drop hrx =>
      exact hquiet rfl (h.quiet rfl (.inr ⟨by rw [hrx]; rfl, by rw [hrx]; rfl⟩))
  | pushRoom hrx _ _ | pushWord hrx _ =>
      exact hquiet rfl (h.quiet rfl (.inr ⟨by rw [hrx], by rw [hrx]⟩))
  | skip hrx _ | pushRefused hrx _ _ | pushStore hrx _ =>
      exact hquiet rfl (h.finish (by rw [hrx]; rfl) (by rw [hrx]; rfl) rfl rfl rfl)
  | @kernel a f hk hf =>
      obtain ⟨-, hheld, -⟩ := kernel_frame hk hf
      cases a with
      | kernelPost i d =>
          have hlen : s.log.length + (pendingAt s.frames.held s.rx).length ≤ posts.length := by
            obtain ⟨-, past, todo, harr, hD⟩ := hflow
            have hpast := hD.log.length_eq
            have htodo := congrArg List.length hD.descs
            have hall := congrArg List.length harr
            rw [List.length_map, List.length_append] at htodo
            rw [frames, List.length_map, List.length_append] at hall
            omega
          exact h.post rfl hsent hlen rfl rfl hheld
      | kernelTake => exact hquiet rfl (h.quiet rfl (.inr ⟨rfl, by rw [hheld]⟩))
      | kernelPublish k => exact hquiet rfl (h.quiet rfl (.inr ⟨rfl, by rw [hheld]⟩))
      | _ => cases hk

structure Invariant (x : Libxdp) (L : Spsc.TriviallyCopyable FeedEvent ι α)
    (posts : List Posting) (w : State ι α) : Prop where
  fits : w.now < 2 ^ 64
  sender : ∀ ts, w.sender = some ts → ts.toNat ≤ w.now
  sent : ∀ ts ∈ w.sent, ts.toNat ≤ w.now
  flow : Flow x L (frames posts) w.handler
  timed : Timed w.now posts w.handler

theorem invariant_step {w w' : State ι α} {a : Action ι} (hI : Invariant x L posts w)
    (ha : Proper w a) (h : step x L w a = some w') :
    Invariant x L (posts ++ (posting a w').toList) w' := by
  have hnone : posting a w' = none → posts ++ (posting a w').toList = posts := by
    intro hnone
    rw [hnone, Option.toList_none, List.append_nil]
  cases a with
  | tick d =>
      cases h
      rw [hnone rfl]
      have hle : w.now ≤ w.now + d := Nat.le_add_right _ _
      exact ⟨ha, fun ts hts => Nat.le_trans (hI.sender ts hts) hle,
        fun ts hts => Nat.le_trans (hI.sent ts hts) hle, hI.flow, hI.timed.mono hle⟩
  | sendOne =>
      rw [hnone rfl]
      simp only [step] at h
      split at h
      next =>
        cases h
        refine ⟨hI.fits, fun ts hts => ?_, hI.sent, hI.flow, hI.timed⟩
        cases hts
        exact Nat.le_of_eq (clockNs_toNat hI.fits)
      next => cases h
  | sendto ok =>
      rw [hnone rfl]
      simp only [step] at h
      split at h
      next ts hts =>
        cases h
        refine ⟨hI.fits, nofun, ?_, hI.flow, hI.timed⟩
        dsimp only
        split
        · refine List.forall_mem_append.mpr ⟨hI.sent, fun t ht => ?_⟩
          rw [List.mem_singleton.mp ht]
          exact hI.sender ts hts
        · exact hI.sent
      next => cases h
  | handler a =>
      simp only [step] at h
      split at h
      next htime =>
        obtain ⟨s, hs, rfl⟩ := Option.map_eq_some_iff.mp h
        refine ⟨hI.fits, hI.sender, hI.sent, ?_,
          timed_handler hI.flow hI.timed hI.fits hI.sent ha htime hs⟩
        have hframes : frames (posts ++ (posting (.handler a) { w with handler := s }).toList)
            = frames posts ++ (arrival a s).toList := by
          rw [frames, frames, List.map_append, posting]
          cases arrival a s <;> rfl
        rw [hframes]
        exact flow_step hI.flow ha hs
      next => cases h

theorem invariant_run {now : Nat} {b : Nat → ι → α} {mem : Nat → UInt8} {as : List (Action ι)}
    {w₀ w : State ι α} (hnow : now < 2 ^ 64)
    (hstart : step x L (init now b mem) (.handler .start) = some w₀)
    (has : Meets (step x L) Proper w₀ as) (hrun : run (step x L) w₀ as = some w) :
    Invariant x L (collect (step x L) posting w₀ as) w := by
  have hinit : Invariant x L [] w₀ := by
    obtain ⟨s, hs, rfl⟩ : ∃ s, Handler.step x L (Handler.init b mem) .start = some s ∧
        w₀ = { init now b mem with handler := s } := by
      simpa [step, onTime, init, eq_comm] using hstart
    have honly : run (Handler.step x L) (Handler.init b mem) [.start] = some s :=
      run_cons.mpr ⟨s, hs, rfl⟩
    have hflow : Flow x L [] s := by
      have hrun := flow_run (List.forall_mem_nil _) honly
      rw [collect_cons hs] at hrun
      exact hrun
    refine ⟨hnow, nofun, nofun, hflow, ?_⟩
    cases hs
    exact ⟨nofun, nofun, nofun, .nil, nofun, nofun⟩
  have hstep : ∀ posts w a w', Invariant x L posts w → Proper w a → step x L w a = some w' →
      Invariant x L (posts ++ (posting a w').toList) w' :=
    fun _ _ _ _ hI ha ht => invariant_step hI ha ht
  exact run_collect_where hstep hinit has hrun

/-! ## What the consumer measures -/

/-- The frame behind an event in the ring. -/
theorem Invariant.pushed {w : State ι α} (hI : Invariant x L posts w) {e : Handled}
    {ev : FeedEvent} (he : e ∈ w.handler.log) (hev : e.pushed = some ev) :
    ∃ p ∈ posts, p.frame.event e.parse.ts = some ev ∧ p.time ≤ e.parse.ts.toNat := by
  obtain ⟨-, past, todo, harr, hD⟩ := hI.flow
  obtain ⟨i, hi⟩ := List.mem_iff_getElem?.mp he
  obtain ⟨a, ha, hm⟩ := matches_at hD.log hi
  have hevent : a.event e.parse.ts = some ev := by
    rw [← hm.event, ← hev, Handled.pushed]
    cases hr : e.refused with
    | none => rfl
    | some k => simp [Handled.pushed, hr] at hev
  have hpost : (frames posts)[i]? = some a := by
    rw [harr, List.getElem?_append_left (List.getElem?_eq_some_iff.mp ha).1]
    exact ha
  rw [frames, List.getElem?_map, Option.map_eq_some_iff] at hpost
  obtain ⟨p, hp, rfl⟩ := hpost
  exact ⟨p, List.mem_of_getElem? hp, hevent, hI.timed.caused i e p hi hp⟩

end Steps

variable [Fintype ι] [DecidableEq ι]

/-- **Latencies are true.** The sender, the clock, the kernel, the RX
thread and the consumer move in any order, from a single `start()` on, and
the kernel posts any frames that leave `kMaxPayload` bytes of their UMEM
frames unused. Then every event popped or in the ring is the event of a
frame that was posted, no earlier than it was posted and not in the
future. If that frame holds a datagram that had been sent, `inject_ns` is
the timestamp of that datagram, the receive timestamp is no earlier, and
what a consumer computes now as `clock_ns() - inject_ns` is the time since
that `send_one` read the clock, without wrapping. The receive timestamps
never decrease from one event to the next. -/
theorem latency_true (x : Libxdp) (L : Spsc.TriviallyCopyable FeedEvent ι α) (now : Nat)
    (b : Nat → ι → α) (mem : Nat → UInt8) (as : List (Action ι)) (w₀ w : State ι α)
    (hnow : now < 2 ^ 64) (hstart : step x L (init now b mem) (.handler .start) = some w₀)
    (has : Meets (step x L) Proper w₀ as) (hrun : run (step x L) w₀ as = some w) :
    (∀ ev ∈ w.handler.ring.popped ++ w.handler.ring.contents L kRingCap,
      ∃ p ∈ collect (step x L) posting w₀ as, p.frame.event ev.receiveNs = some ev ∧
        p.time ≤ ev.receiveNs.toNat ∧ ev.receiveNs.toNat ≤ w.now ∧
        ∀ ts, p.Holds ts → ev.injectNs = ts ∧ ev.payloadLen = 64 ∧ ts.toNat ≤ p.time ∧
          (ev.receiveNs - ev.injectNs).toNat = ev.receiveNs.toNat - ts.toNat ∧
          (clockNs (clockGettime w.now) - ev.injectNs).toNat = w.now - ts.toNat) ∧
      (w.handler.ring.popped ++ w.handler.ring.contents L kRingCap).Pairwise
        fun ev ev' => ev.receiveNs ≤ ev'.receiveNs := by
  have hI := invariant_run hnow hstart has hrun
  have hB : Books L w.handler.rx w.handler.frames.held w.handler.ring w.handler.log
      w.handler.received w.handler.pktsRx w.handler.pktsDropped := hI.flow.1.accounted
  rw [hB.ringInv.contents, hB.pushedLog]
  constructor
  · intro ev hev
    obtain ⟨e, he, hpush⟩ := List.mem_filterMap.mp hev
    obtain ⟨p, hp, hevent, hcaused⟩ := hI.pushed he hpush
    have hreceive := event_receiveNs hevent
    have hpast := hI.timed.past e he
    rw [← hreceive] at hevent hcaused hpast
    refine ⟨p, hp, hevent, hcaused, hpast, fun ts hts => ?_⟩
    obtain ⟨hinject, hlen⟩ := hts.event hevent
    have hsent := hI.timed.sent p hp ts hts.1
    have hclock := clockNs_toNat hI.fits
    refine ⟨hinject, hlen, hsent, ?_, ?_⟩
    · rw [hinject, UInt64.toNat_sub_of_le _ _ (UInt64.le_iff_toNat_le.mpr (by omega))]
    · rw [hinject, UInt64.toNat_sub_of_le _ _ (UInt64.le_iff_toNat_le.mpr (by omega)), hclock]
  · have hmem := List.Pairwise.and_mem.mp hI.timed.ordered
    refine List.Pairwise.filterMap _ ?_ hmem
    rintro e e' ⟨he, he', hle⟩ ev hev ev' hev'
    obtain ⟨p, -, hevent, -⟩ := hI.pushed he hev
    obtain ⟨p', -, hevent', -⟩ := hI.pushed he' hev'
    rw [event_receiveNs hevent, event_receiveNs hevent']
    exact hle

/-- A datagram is sent at time 5 and received at time 7. -/
def datagramReceived : List (Action Unit) :=
  [.sendOne, .sendto true, .tick 2, .handler .populate, .handler .populateSubmit,
    .handler (.kernel .kernelTake), .handler (.kernel (.kernelPost 0 ⟨256, 112, 0⟩)),
    .handler (.burst 1), .handler .burstDone, .handler (.stamp 7), .handler .next]

/-- It is parsed, pushed and popped. -/
def datagramPassed : List (Action Unit) :=
  List.replicate 93 (.handler .readByte) ++ oneEventPassed.map .handler

/-- The datagram at 256 in the UMEM. -/
def frameMem (addr : Nat) : UInt8 := (sentFrame 5).wire.getD (addr - 256) 0

/-- The handler has been started at time 5. -/
def started : State Unit FeedEvent :=
  ⟨5, none, [], { Handler.init (fun _ _ => {}) frameMem with rx := .starting }⟩

theorem bytesAt_of_slice {m : Nat → UInt8} {addr : Nat} {bs : List UInt8}
    (h : slice m addr bs.length = bs) : BytesAt m addr bs := by
  intro i byte hi
  rw [← h, slice, List.getElem?_map, Option.map_eq_some_iff] at hi
  obtain ⟨j, hj, rfl⟩ := hi
  obtain ⟨-, rfl⟩ := List.getElem?_eq_some_iff.mp hj
  rw [List.getElem_range]

theorem datagram_proper :
    Meets (step .byFree oneWord) Proper started (datagramReceived ++ datagramPassed) := by
  have hreceived : Meets (step .byFree oneWord) Proper started datagramReceived := by
    decide +kernel
  refine hreceived.append fun t _ => ?_
  have hlabels : ∀ a ∈ datagramPassed, ∀ w : State Unit FeedEvent, Proper w a := by
    simp [datagramPassed, oneEventPassed, Proper, Handler.Action.Calm]
  exact (meets_of_labels hlabels).mono fun w a h => h w

theorem datagram_run :
    (run (step .byFree oneWord) started (datagramReceived ++ datagramPassed)).map
      (fun w => (w.now, w.handler.ring.popped.map fun ev => (ev.injectNs, ev.receiveNs)))
        = some (7, [(5, 7)]) := by
  decide +kernel

/-- What was posted is the datagram. -/
theorem datagram_holds {p : Posting}
    (hp : p ∈ collect (step .byFree oneWord) posting started (datagramReceived ++ datagramPassed)) :
    p.Holds 5 := by
  have hposted : ∀ p ∈ collect (step .byFree oneWord) posting started
      (datagramReceived ++ datagramPassed), p.frame.desc = ⟨256, 112, 0⟩ ∧ p.sent = [5] ∧
        slice p.frame.mem 256 112 = (sentFrame 5).wire := by
    decide +kernel
  obtain ⟨hdesc, hsent, hmem⟩ := hposted p hp
  have hlen : (sentFrame 5).wire.length = 112 := by
    rw [UdpFrame.wire_length]
    rfl
  have hpacket : p.frame.packet = framePacket 256 112 := by rw [Arrival.packet, hdesc]
  refine ⟨by rw [hsent]; exact List.mem_singleton.mpr rfl, sentFrame 5, ?_, rfl⟩
  rw [hpacket]
  refine carries_of_bytesAt (bytesAt_of_slice ?_) hlen.symm
  rw [hlen]
  exact hmem

theorem latency_true_datagram :
    ∃ w ev, run (step .byFree oneWord) started (datagramReceived ++ datagramPassed) = some w ∧
      w.now = 7 ∧ ev ∈ w.handler.ring.popped ∧ ev.receiveNs = 7 ∧
      ev.injectNs = 5 ∧ ev.payloadLen = 64 ∧
      (clockNs (clockGettime w.now) - ev.injectNs).toNat = w.now - 5 := by
  obtain ⟨w, hrun, heq⟩ := Option.map_eq_some_iff.mp datagram_run
  obtain ⟨hnow, hpopped⟩ := Prod.mk.inj heq
  obtain ⟨ev, hev, hstamps⟩ := List.mem_map.mp (hpopped ▸ List.mem_singleton.mpr rfl)
  obtain ⟨p, hp, -, -, -, hholds⟩ := (latency_true .byFree oneWord 5 (fun _ _ => {}) frameMem _
    started w (by decide) rfl datagram_proper hrun).1 ev (List.mem_append_left _ hev)
  obtain ⟨hinject, hlen, -, -, hlatency⟩ := hholds 5 (datagram_holds hp)
  exact ⟨w, ev, hrun, hnow, hev, (Prod.mk.inj hstamps).2, hinject, hlen, hlatency⟩

end UltrafastFeed.Pipeline
