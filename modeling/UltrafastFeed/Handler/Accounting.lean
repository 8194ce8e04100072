import UltrafastFeed.Handler.Steps
import UltrafastFeed.Lib.Run
import UltrafastFeed.Packet.Event
import UltrafastFeed.Spsc.Fifo

/-!
# FeedHandler — every packet is accounted for

Three components meet in the inner loop: the batch counter is bumped
before the frames are looked at, the parser skips what is not UDP, and
the ring may refuse an event. `Books` states what the two counters, the
ring and the record of handled frames have to do with each other at
EVERY point of the loop, with the frames of the batch that are still to
come (`pendingAt`), and with the two moments at which a counter lags
behind (`uncountedAt`, `undroppedAt`). Between batches all three are
empty, and the equation of the counters is what is left.

Nothing here depends on how often the handler is started, nor on what
the kernel does to the frames.
-/

namespace UltrafastFeed.Handler

open Lib Lib.Run Umem

variable {ι α : Type}

/-! ## What became of a frame -/

/-- The event of a frame that `push` took. -/
def Handled.pushed (e : Handled) : Option FeedEvent :=
  if e.refused.isSome then none else e.parse.event

/-- The parse has ended, a refused frame has an event, and it was refused
by a ring with no room in the producer's view. -/
structure Handled.Sound (e : Handled) : Prop where
  ended : ∃ r, e.parse.residue = .done r ∧ (e.refused.isSome → r.isSome)
  full : ∀ k, e.refused = some k → k = kRingCap.N - 1

theorem Handled.sound_accepted {p : Parse} {r : Option FeedEvent} (h : p.residue = .done r) :
    Handled.Sound ⟨p, none⟩ :=
  ⟨⟨r, h, nofun⟩, nofun⟩

theorem Parse.event_of_residue {p : Parse} {r : Option FeedEvent}
    (h : p.residue = .done r) : p.event = r := by
  rw [Parse.event, h]

theorem Parse.isUdp_of_residue {p : Parse} {r : Option FeedEvent}
    (h : p.residue = .done r) : p.isUdp = r.isSome := by
  rw [Parse.isUdp, isUdp_of_buildEvent h]

theorem Handled.Sound.isUdp {e : Handled} (h : e.Sound) :
    e.parse.isUdp = e.parse.event.isSome := by
  obtain ⟨r, hr, -⟩ := h.ended
  rw [Parse.isUdp_of_residue hr, Parse.event_of_residue hr]

theorem Handled.Sound.refused_isUdp {e : Handled} (h : e.Sound) (href : e.refused.isSome) :
    e.parse.isUdp = true := by
  obtain ⟨r, hr, hsome⟩ := h.ended
  rw [Parse.isUdp_of_residue hr]
  exact hsome href

/-- Pushed, refused or not UDP: exactly one of the three. -/
theorem handled_split {log : List Handled} (h : ∀ e ∈ log, e.Sound) :
    log.length = (log.filterMap Handled.pushed).length
      + log.countP (fun e => e.refused.isSome) + log.countP (fun e => !e.parse.isUdp) := by
  induction log with
  | nil => rfl
  | cons e log ih =>
      have he : e.Sound := h e List.mem_cons_self
      have hrest := ih fun e' he' => h e' (List.mem_cons_of_mem _ he')
      rw [List.length_cons, List.countP_cons, List.countP_cons, List.filterMap_cons]
      by_cases href : e.refused.isSome
      · have hudp : e.parse.isUdp = true := he.refused_isUdp href
        rw [show e.pushed = none from if_pos href]
        simp only [href, hudp, Bool.not_true, if_true, Bool.false_eq_true, if_false]
        omega
      · rw [show e.pushed = e.parse.event from if_neg href]
        cases hev : e.parse.event with
        | none =>
            have hudp : e.parse.isUdp = false := by rw [he.isUdp, hev]; rfl
            simp only [href, hudp, Bool.not_false, if_true, Bool.false_eq_true, if_false]
            omega
        | some ev =>
            have hudp : e.parse.isUdp = true := by rw [he.isUdp, hev]; rfl
            simp only [href, hudp, Bool.not_true, Bool.false_eq_true, if_false,
              List.length_cons]
            omega

/-! ## The books -/

/-- Received and not yet through the inner loop. -/
def pendingAt (held : List RxDesc) : Rx → List RxDesc
  | .received => held
  | .handling _ rest => rest
  | .parsing p rest => p.desc :: rest
  | .pushing p rest => p.desc :: rest
  | .refused _ rest => rest
  | _ => []

/-- Received and not yet added to `pkts_rx_`. -/
def uncountedAt (held : List RxDesc) : Rx → Nat
  | .received => held.length
  | _ => 0

/-- Refused and not yet added to `pkts_dropped_`. -/
def undroppedAt : Rx → Nat
  | .refused _ _ => 1
  | _ => 0

/-- The producer side of the ring is busy with the frame's event. -/
def PushAt (prod : Spsc.Producer FeedEvent ι) : Rx → Prop
  | .pushing p _ => ∃ ev, p.residue = .done (some ev) ∧
      ((∃ t, prod = .loaded ev t) ∨ ∃ t todo, prod = .copying ev t todo)
  | _ => prod = .idle

theorem PushAt.loaded {prod : Spsc.Producer FeedEvent ι} {p : Parse} {rest : List RxDesc}
    {ev : FeedEvent} {t : Nat} (h : PushAt prod (.pushing p rest))
    (hprod : prod = .loaded ev t) : p.residue = .done (some ev) := by
  subst hprod
  obtain ⟨ev', hp, ⟨t', heq⟩ | ⟨t', todo, heq⟩⟩ := h
  · cases heq
    exact hp
  · cases heq

theorem PushAt.copying {prod : Spsc.Producer FeedEvent ι} {p : Parse} {rest : List RxDesc}
    {ev : FeedEvent} {t : Nat} {todo : Finset ι} (h : PushAt prod (.pushing p rest))
    (hprod : prod = .copying ev t todo) : p.residue = .done (some ev) := by
  subst hprod
  obtain ⟨ev', hp, ⟨t', heq⟩ | ⟨t', todo', heq⟩⟩ := h
  · cases heq
  · cases heq
    exact hp

structure Books (L : Spsc.TriviallyCopyable FeedEvent ι α) (rx : Rx) (held : List RxDesc)
    (ring : Spsc.State FeedEvent ι α) (log : List Handled) (received : List RxDesc)
    (pktsRx pktsDropped : UInt64) : Prop where
  ringInv : Spsc.RingInv L kRingCap ring
  producer : PushAt ring.prod rx
  pushedLog : ring.pushed = log.filterMap Handled.pushed
  arrived : log.map (fun e => e.parse.desc) ++ pendingAt held rx = received
  counted : pktsRx + UInt64.ofNat (uncountedAt held rx) = UInt64.ofNat received.length
  dropped : pktsDropped + UInt64.ofNat (undroppedAt rx)
    = UInt64.ofNat (log.countP fun e => e.refused.isSome)
  sound : ∀ e ∈ log, e.Sound

def Accounted (L : Spsc.TriviallyCopyable FeedEvent ι α) (s : State ι α) : Prop :=
  Books L s.rx s.frames.held s.ring s.log s.received s.pktsRx s.pktsDropped

section Books

variable {L : Spsc.TriviallyCopyable FeedEvent ι α} {rx : Rx} {held : List RxDesc}
variable {ring ring' : Spsc.State FeedEvent ι α} {log : List Handled}
variable {received : List RxDesc} {pktsRx pktsDropped : UInt64}

/-- A step, of the ring or not, that pushes nothing and moves nothing
from one column to another. -/
theorem Books.ringStep (h : Books L rx held ring log received pktsRx pktsDropped)
    (hring : Spsc.RingInv L kRingCap ring') (hpushed : ring'.pushed = ring.pushed) {rx' : Rx}
    {held' : List RxDesc} (hpush : PushAt ring'.prod rx')
    (hpend : pendingAt held' rx' = pendingAt held rx)
    (hunc : uncountedAt held' rx' = uncountedAt held rx)
    (hund : undroppedAt rx' = undroppedAt rx) :
    Books L rx' held' ring' log received pktsRx pktsDropped where
  ringInv := hring
  producer := hpush
  pushedLog := by rw [hpushed]; exact h.pushedLog
  arrived := by rw [hpend]; exact h.arrived
  counted := by rw [hunc]; exact h.counted
  dropped := by rw [hund]; exact h.dropped
  sound := h.sound

theorem Books.quiet (h : Books L rx held ring log received pktsRx pktsDropped) {rx' : Rx}
    {held' : List RxDesc} (hpush : PushAt ring.prod rx → PushAt ring.prod rx')
    (hpend : pendingAt held' rx' = pendingAt held rx)
    (hunc : uncountedAt held' rx' = uncountedAt held rx)
    (hund : undroppedAt rx' = undroppedAt rx) :
    Books L rx' held' ring log received pktsRx pktsDropped :=
  h.ringStep h.ringInv rfl (hpush h.producer) hpend hunc hund

theorem accounted_init (b : Nat → ι → α) (mem : Nat → UInt8) :
    Accounted L (init b mem) where
  ringInv := Spsc.inv_init b
  producer := rfl
  pushedLog := rfl
  arrived := rfl
  counted := rfl
  dropped := rfl
  sound _ he := absurd he List.not_mem_nil

/-- What `rx_burst` hands over is pending from here on. -/
theorem Books.burstDone
    (h : Books L .bursting held ring log received pktsRx pktsDropped) (batch : List RxDesc) :
    Books L (if batch = [] then .polling else .received) batch ring log (received ++ batch)
      pktsRx pktsDropped := by
  have harrived : log.map (fun e => e.parse.desc) ++ [] = received := h.arrived
  have hcounted : pktsRx + 0 = UInt64.ofNat received.length := h.counted
  by_cases hbatch : batch = []
  · subst hbatch
    rw [if_pos rfl, List.append_nil]
    exact h.quiet id rfl rfl rfl
  · rw [if_neg hbatch]
    refine ⟨h.ringInv, h.producer, h.pushedLog, ?_, ?_, h.dropped, h.sound⟩
    · show log.map (fun e => e.parse.desc) ++ batch = received ++ batch
      rw [← harrived, List.append_nil]
    · show pktsRx + UInt64.ofNat batch.length = UInt64.ofNat (received ++ batch).length
      rw [List.length_append, UInt64.ofNat_add, ← hcounted, UInt64.add_zero]

/-- The inner loop is done with the first pending frame. -/
theorem Books.finish {p : Parse} {rest : List RxDesc}
    (h : Books L rx held ring log received pktsRx pktsDropped)
    (hpend : pendingAt held rx = p.desc :: rest) (hunc : uncountedAt held rx = 0)
    (hund : undroppedAt rx = 0) {refused : Option Nat} (hsound : Handled.Sound ⟨p, refused⟩)
    (hring : Spsc.RingInv L kRingCap ring')
    (hpushed : ring'.pushed = ring.pushed ++ (Handled.pushed ⟨p, refused⟩).toList)
    {rx' : Rx} (hpush : PushAt ring'.prod rx') (hpend' : pendingAt held rx' = rest)
    (hunc' : uncountedAt held rx' = 0)
    (hund' : undroppedAt rx' = if refused.isSome then 1 else 0) :
    Books L rx' held ring' (log ++ [⟨p, refused⟩]) received pktsRx pktsDropped where
  ringInv := hring
  producer := hpush
  pushedLog := by
    rw [hpushed, h.pushedLog, List.filterMap_append, List.filterMap_cons]
    cases Handled.pushed ⟨p, refused⟩ <;> rfl
  arrived := by
    rw [← h.arrived, hpend, hpend', List.map_append, List.append_assoc]
    rfl
  counted := by
    rw [hunc', ← hunc]
    exact h.counted
  dropped := by
    have hbefore := h.dropped
    rw [hund, show UInt64.ofNat 0 = 0 from rfl, UInt64.add_zero] at hbefore
    rw [hund', List.countP_append, UInt64.ofNat_add, ← hbefore, List.countP_singleton]
  sound := by
    intro e he
    rcases List.mem_append.mp he with he | he
    · exact h.sound e he
    · rw [List.mem_singleton.mp he]
      exact hsound

end Books

/-! ## Every step keeps the books -/

variable [Fintype ι] [DecidableEq ι]
variable {x : Libxdp} {L : Spsc.TriviallyCopyable FeedEvent ι α} {s s' : State ι α}

/-- A refused `push`: the producer saw a full ring. -/
theorem pushCheck_refused {r r' : Spsc.State FeedEvent ι α} {j : Nat}
    (hI : Spsc.RingInv L kRingCap r) (h : Spsc.step L kRingCap r (.pushCheck j) = some r')
    (hidle : r'.prod = .idle) : r'.pushed = r.pushed ∧ r'.pushed.length - j = kRingCap.N - 1 := by
  obtain ⟨ev, i, v, hp, hle, hj, hcase⟩ := Spsc.step_pushCheck h
  rcases hcase with ⟨hfull, rfl⟩ | ⟨-, rfl⟩
  · have hprod := hI.prod
    rw [Spsc.ProducerInv, hp] at hprod
    obtain ⟨-, hlen⟩ := hI.full hle hj hprod hfull
    exact ⟨rfl, by rw [hlen, Nat.add_sub_cancel_left]⟩
  · cases hidle

theorem Accounted.step {a : Action ι} (hI : Accounted L s) (h : step x L s a = some s') :
    Accounted L s' := by
  have hB : Books L s.rx s.frames.held s.ring s.log s.received s.pktsRx s.pktsDropped := hI
  cases step_moves h with
  | start hrx | populate hrx _ | populateSubmit hrx _ | join hrx | exit hrx _ | burst hrx _
  | polled hrx | nextFrame hrx | release hrx _ | readByte hrx _ | releaseSubmit hrx _ =>
      rw [hrx] at hB
      exact hB.quiet id rfl rfl rfl
  | stop | kernelWrite => exact hB
  | @burstDone f hrx hf =>
      rw [hrx] at hB
      exact hB.burstDone f.held
  | stamp hrx =>
      rw [hrx] at hB
      exact ⟨hB.ringInv, hB.producer, hB.pushedLog, hB.arrived,
        (UInt64.add_zero _).trans hB.counted, hB.dropped, hB.sound⟩
  | @skip p rest hrx hp =>
      rw [hrx] at hB
      have hnone : Handled.pushed ⟨p, none⟩ = none := Parse.event_of_residue hp
      refine hB.finish rfl rfl rfl (Handled.sound_accepted hp) hB.ringInv ?_ hB.producer
        rfl rfl rfl
      rw [hnone, Option.toList_none, List.append_nil]
  | @push p rest ev r hrx hp hr =>
      rw [hrx] at hB
      have hring := hB.ringInv.step hr
      obtain ⟨t, -, -, rfl⟩ := Spsc.step_push hr
      exact hB.ringStep hring rfl ⟨ev, hp, .inl ⟨_, rfl⟩⟩ rfl rfl rfl
  | @pushRefused j p rest r hrx hr hidle =>
      rw [hrx] at hB
      obtain ⟨ev, hp, -⟩ := hB.producer
      obtain ⟨hpushed, hfull⟩ := pushCheck_refused hB.ringInv hr hidle
      refine hB.finish rfl rfl rfl ⟨⟨some ev, hp, fun _ => rfl⟩, ?_⟩ (hB.ringInv.step hr) ?_
        hidle rfl rfl rfl
      · intro k hk
        cases hk
        exact hfull
      · rw [hpushed]
        exact (List.append_nil _).symm
  | @pushRoom j p rest r hrx hr hbusy =>
      rw [hrx] at hB
      have hring := hB.ringInv.step hr
      obtain ⟨ev, i, v, hload, -, -, ⟨-, rfl⟩ | ⟨-, rfl⟩⟩ := Spsc.step_pushCheck hr
      · exact absurd rfl hbusy
      · exact hB.ringStep hring rfl ⟨ev, hB.producer.loaded hload, .inr ⟨_, _, rfl⟩⟩ rfl rfl rfl
  | @pushWord w p rest r hrx hr =>
      rw [hrx] at hB
      have hring := hB.ringInv.step hr
      obtain ⟨ev, i, todo, b, hcopy, -, -, rfl⟩ := Spsc.step_pushWord hr
      exact hB.ringStep hring rfl ⟨ev, hB.producer.copying hcopy, .inr ⟨_, _, rfl⟩⟩ rfl rfl rfl
  | @pushStore p rest r hrx hr =>
      rw [hrx] at hB
      have hring := hB.ringInv.step hr
      obtain ⟨ev, i, hcopy, rfl⟩ := Spsc.step_pushStore hr
      have hp := hB.producer.copying hcopy
      have hsome : Handled.pushed ⟨p, none⟩ = some ev := Parse.event_of_residue hp
      refine hB.finish rfl rfl rfl (Handled.sound_accepted hp) hring ?_ rfl rfl rfl rfl
      rw [hsome]
      rfl
  | drop hrx =>
      rw [hrx] at hB
      exact ⟨hB.ringInv, hB.producer, hB.pushedLog, hB.arrived, hB.counted,
        (UInt64.add_zero _).trans hB.dropped, hB.sound⟩
  | @kernel a f hk hf =>
      show Books L s.rx f.held s.ring s.log s.received s.pktsRx s.pktsDropped
      rw [(kernel_frame hk hf).2.1]
      exact hB
  | consumer ha hr =>
      obtain ⟨hprod, hpushed⟩ := consumer_frame ha hr
      exact hB.ringStep (hB.ringInv.step hr) hpushed (by rw [hprod]; exact hB.producer) rfl rfl rfl

theorem accounted_reachable {b : Nat → ι → α} {mem : Nat → UInt8}
    (h : Reachable (step x L) (init b mem) s) : Accounted L s :=
  h.invariant (fun _ _ _ hI hs => hI.step hs) (accounted_init b mem)

/-! ## Between batches -/

/-- The RX thread is not running, at the top of its loop, inside
`rx_burst` or `poll`, or giving its batch back. -/
def Rx.Between : Rx → Prop
  | .received | .handling _ _ | .parsing _ _ | .pushing _ _ | .refused _ _ => False
  | _ => True

theorem between_columns {rx : Rx} (h : rx.Between) (held : List RxDesc) :
    pendingAt held rx = [] ∧ uncountedAt held rx = 0 ∧ undroppedAt rx = 0 := by
  cases rx with
  | received | handling _ _ | parsing _ _ | pushing _ _ | refused _ _ => exact h.elim
  | _ => exact ⟨rfl, rfl, rfl⟩

def oneFrameReceived : List (Action Unit) :=
  [.start, .populate, .populateSubmit, .kernel .kernelTake,
    .kernel (.kernelPost 0 ⟨256, 50, 0⟩), .burst 1, .burstDone, .stamp 7, .next]

def oneEventPassed : List (Action Unit) :=
  [.parsed, .pushCheck 0, .pushWord (), .pushStore, .next, .consumer .pop, .releaseSubmit,
    .consumer (.popCheck 1), .consumer (.popWord () 1), .consumer .popStore]

/-- One UDP frame of 50 bytes, parsed, pushed, released and popped. -/
def oneEvent : List (Action Unit) :=
  oneFrameReceived ++ List.replicate 37 .readByte ++ oneEventPassed

theorem oneEvent_enabled :
    (run (step .byFree oneWord)
      (init (fun _ _ => {}) fun a => headerChain 8 1 (a - 256)) oneEvent).isSome := by
  decide +kernel

end UltrafastFeed.Handler
