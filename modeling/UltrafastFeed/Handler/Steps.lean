import UltrafastFeed.Handler.Model
import UltrafastFeed.Spsc.Steps
import UltrafastFeed.Umem.Conservation

/-!
# FeedHandler — what a step can do

`Moves` lists every way a step of the handler can go, with the steps of
`Umem` and of the ring it is made of; `step_moves` is the only place
where `step` is unfolded. Below it: what the kernel's and the consumer's
own steps leave alone.
-/

namespace UltrafastFeed.Handler

open Lib Umem

variable {ι α : Type}

theorem onFrames_some {x : Libxdp} {s s' : State ι α} {a : Umem.Action} {rx : Rx}
    (h : s.onFrames x a rx = some s') :
    ∃ f, Umem.step x umemConfig s.frames a = some f ∧
      s' = { s with frames := f, rx := rx } := by
  obtain ⟨f, hf, rfl⟩ := Option.map_eq_some_iff.mp h
  exact ⟨f, hf, rfl⟩

variable [Fintype ι] [DecidableEq ι]
variable {x : Libxdp} {L : Spsc.TriviallyCopyable FeedEvent ι α} {s s' : State ι α}

/-- Every way a step can go. -/
inductive Moves (x : Libxdp) (L : Spsc.TriviallyCopyable FeedEvent ι α) (s : State ι α) :
    Action ι → State ι α → Prop
  | start (hrx : s.rx = .down) :
      Moves x L s .start { s with stopFlag := false, rx := .starting }
  | populate {f : Umem.State} (hrx : s.rx = .starting)
      (hf : Umem.step x umemConfig s.frames .populate = some f) :
      Moves x L s .populate { s with frames := f, rx := .priming }
  | populateSubmit {f : Umem.State} (hrx : s.rx = .priming)
      (hf : Umem.step x umemConfig s.frames .populateSubmit = some f) :
      Moves x L s .populateSubmit { s with frames := f, rx := .top }
  | stop : Moves x L s .stop { s with stopFlag := true }
  | join (hrx : s.rx = .exited) : Moves x L s .join { s with rx := .down }
  | exit (hrx : s.rx = .top) (hstop : s.stopFlag = true) :
      Moves x L s .exit { s with rx := .exited }
  | burst {rcvd : Nat} {f : Umem.State} (hrx : s.rx = .top)
      (hf : Umem.step x umemConfig s.frames (.rxBurst kMaxBatch rcvd) = some f) :
      Moves x L s (.burst rcvd) { s with frames := f, rx := .bursting }
  | burstDone {f : Umem.State} (hrx : s.rx = .bursting)
      (hf : Umem.step x umemConfig s.frames .rxBurstRelease = some f) :
      Moves x L s .burstDone { s with
        frames := f
        rx := if f.held = [] then .polling else .received
        received := s.received ++ f.held }
  | polled (hrx : s.rx = .polling) : Moves x L s .polled { s with rx := .top }
  | stamp {ts : UInt64} (hrx : s.rx = .received) :
      Moves x L s (.stamp ts) { s with
        pktsRx := s.pktsRx + UInt64.ofNat s.frames.held.length
        rx := .handling ts s.frames.held }
  | nextFrame {ts : UInt64} {d : RxDesc} {rest : List RxDesc}
      (hrx : s.rx = .handling ts (d :: rest)) :
      Moves x L s .next { s with rx := .parsing ⟨d, ts, []⟩ rest }
  | release {ts : UInt64} {f : Umem.State} (hrx : s.rx = .handling ts [])
      (hf : Umem.step x umemConfig s.frames (.rxRelease s.frames.held []) = some f) :
      Moves x L s .next { s with frames := f, rx := .releasing }
  | readByte {p : Parse} {rest : List RxDesc} {addr : Nat}
      {k : UInt8 → Reads (Option FeedEvent)} (hrx : s.rx = .parsing p rest)
      (hp : p.residue = .read addr k) :
      Moves x L s .readByte
        { s with rx := .parsing { p with seen := p.seen ++ [s.mem addr] } rest }
  | skip {p : Parse} {rest : List RxDesc} (hrx : s.rx = .parsing p rest)
      (hp : p.residue = .done none) :
      Moves x L s .parsed (s.finish p none (.handling p.ts rest))
  | push {p : Parse} {rest : List RxDesc} {ev : FeedEvent}
      {r : Spsc.State FeedEvent ι α} (hrx : s.rx = .parsing p rest)
      (hp : p.residue = .done (some ev))
      (hr : Spsc.step L kRingCap s.ring (.push ev) = some r) :
      Moves x L s .parsed { s with ring := r, rx := .pushing p rest }
  | pushRefused {j : Nat} {p : Parse} {rest : List RxDesc}
      {r : Spsc.State FeedEvent ι α} (hrx : s.rx = .pushing p rest)
      (hr : Spsc.step L kRingCap s.ring (.pushCheck j) = some r) (hidle : r.prod = .idle) :
      Moves x L s (.pushCheck j)
        (State.finish { s with ring := r } p (some (r.pushed.length - j)) (.refused p.ts rest))
  | pushRoom {j : Nat} {p : Parse} {rest : List RxDesc}
      {r : Spsc.State FeedEvent ι α} (hrx : s.rx = .pushing p rest)
      (hr : Spsc.step L kRingCap s.ring (.pushCheck j) = some r) (hbusy : r.prod ≠ .idle) :
      Moves x L s (.pushCheck j) { s with ring := r, rx := .pushing p rest }
  | pushWord {w : ι} {p : Parse} {rest : List RxDesc}
      {r : Spsc.State FeedEvent ι α} (hrx : s.rx = .pushing p rest)
      (hr : Spsc.step L kRingCap s.ring (.pushWord w) = some r) :
      Moves x L s (.pushWord w) { s with ring := r, rx := .pushing p rest }
  | pushStore {p : Parse} {rest : List RxDesc}
      {r : Spsc.State FeedEvent ι α} (hrx : s.rx = .pushing p rest)
      (hr : Spsc.step L kRingCap s.ring .pushStore = some r) :
      Moves x L s .pushStore (State.finish { s with ring := r } p none (.handling p.ts rest))
  | drop {ts : UInt64} {rest : List RxDesc} (hrx : s.rx = .refused ts rest) :
      Moves x L s .drop
        { s with pktsDropped := s.pktsDropped + 1, rx := .handling ts rest }
  | releaseSubmit {f : Umem.State} (hrx : s.rx = .releasing)
      (hf : Umem.step x umemConfig s.frames .rxReleaseSubmit = some f) :
      Moves x L s .releaseSubmit { s with frames := f, rx := .top }
  | kernel {a : Umem.Action} {f : Umem.State} (ha : isKernel a = true)
      (hf : Umem.step x umemConfig s.frames a = some f) :
      Moves x L s (.kernel a) { s with frames := f }
  | kernelWrite {addr : Nat} {b : UInt8}
      (hk : ∃ a ∈ s.frames.kernel,
        umemConfig.frameOf a = addr / umemConfig.frameSize.toNat) :
      Moves x L s (.kernelWrite addr b)
        { s with mem := fun y => if y = addr then b else s.mem y }
  | consumer {a : Spsc.Action FeedEvent ι} {r : Spsc.State FeedEvent ι α}
      (ha : isConsumer a = true) (hr : Spsc.step L kRingCap s.ring a = some r) :
      Moves x L s (.consumer a) { s with ring := r }

theorem onRing_some {a : Spsc.Action FeedEvent ι} {rx : Rx} (h : s.onRing L a rx = some s') :
    ∃ r, Spsc.step L kRingCap s.ring a = some r ∧ s' = { s with ring := r, rx := rx } := by
  obtain ⟨r, hr, rfl⟩ := Option.map_eq_some_iff.mp h
  exact ⟨r, hr, rfl⟩

/-- **Inversion**: a step goes one of the listed ways. -/
theorem step_moves {a : Action ι} (h : step x L s a = some s') : Moves x L s a s' := by
  cases a with
  | start =>
      simp only [step] at h
      split at h
      next hrx => cases h; exact .start hrx
      next => cases h
  | populate =>
      simp only [step] at h
      split at h
      next hrx =>
        obtain ⟨f, hf, rfl⟩ := onFrames_some h
        exact .populate hrx hf
      next => cases h
  | populateSubmit =>
      simp only [step] at h
      split at h
      next hrx =>
        obtain ⟨f, hf, rfl⟩ := onFrames_some h
        exact .populateSubmit hrx hf
      next => cases h
  | stop =>
      cases h
      exact .stop
  | join =>
      simp only [step] at h
      split at h
      next hrx => cases h; exact .join hrx
      next => cases h
  | exit =>
      simp only [step] at h
      split at h
      next hrx =>
        split at h
        next hstop => cases h; exact .exit hrx hstop
        next => cases h
      next => cases h
  | burst rcvd =>
      simp only [step] at h
      split at h
      next hrx =>
        obtain ⟨f, hf, rfl⟩ := onFrames_some h
        exact .burst hrx hf
      next => cases h
  | burstDone =>
      simp only [step] at h
      split at h
      next hrx =>
        obtain ⟨t, ht, rfl⟩ := Option.map_eq_some_iff.mp h
        obtain ⟨f, hf, rfl⟩ := onFrames_some ht
        exact .burstDone hrx hf
      next => cases h
  | polled =>
      simp only [step] at h
      split at h
      next hrx => cases h; exact .polled hrx
      next => cases h
  | stamp ts =>
      simp only [step] at h
      split at h
      next hrx => cases h; exact .stamp hrx
      next => cases h
  | next =>
      simp only [step] at h
      split at h
      next hrx => cases h; exact .nextFrame hrx
      next hrx =>
        obtain ⟨f, hf, rfl⟩ := onFrames_some h
        exact .release hrx hf
      next => cases h
  | readByte =>
      simp only [step] at h
      split at h
      next hrx =>
        split at h
        next hp => cases h; exact .readByte hrx hp
        next => cases h
      next => cases h
  | parsed =>
      simp only [step] at h
      split at h
      next hrx =>
        split at h
        next hp => cases h; exact .skip hrx hp
        next hp =>
          obtain ⟨r, hr, rfl⟩ := onRing_some h
          exact .push hrx hp hr
        next => cases h
      next => cases h
  | pushCheck j =>
      simp only [step] at h
      split at h
      next hrx =>
        obtain ⟨t, ht, hs⟩ := Option.map_eq_some_iff.mp h
        obtain ⟨r, hr, rfl⟩ := onRing_some ht
        by_cases hidle : r.prod = .idle
        · simp only [hidle] at hs
          subst hs
          exact .pushRefused hrx hr hidle
        · split at hs
          next hidle' => exact absurd hidle' hidle
          next => subst hs; exact .pushRoom hrx hr hidle
      next => cases h
  | pushWord w =>
      simp only [step] at h
      split at h
      next hrx =>
        obtain ⟨r, hr, rfl⟩ := onRing_some h
        exact .pushWord hrx hr
      next => cases h
  | pushStore =>
      simp only [step] at h
      split at h
      next hrx =>
        obtain ⟨t, ht, rfl⟩ := Option.map_eq_some_iff.mp h
        obtain ⟨r, hr, rfl⟩ := onRing_some ht
        exact .pushStore hrx hr
      next => cases h
  | drop =>
      simp only [step] at h
      split at h
      next hrx => cases h; exact .drop hrx
      next => cases h
  | releaseSubmit =>
      simp only [step] at h
      split at h
      next hrx =>
        obtain ⟨f, hf, rfl⟩ := onFrames_some h
        exact .releaseSubmit hrx hf
      next => cases h
  | kernel a =>
      simp only [step] at h
      split at h
      next ha =>
        obtain ⟨f, hf, rfl⟩ := onFrames_some h
        exact .kernel ha hf
      next => cases h
  | kernelWrite addr b =>
      simp only [step] at h
      split at h
      next hk =>
        cases h
        obtain ⟨a, ha, hfr⟩ := List.any_eq_true.mp hk
        exact .kernelWrite ⟨a, ha, of_decide_eq_true hfr⟩
      next => cases h
  | consumer a =>
      simp only [step] at h
      split at h
      next ha =>
        obtain ⟨r, hr, rfl⟩ := onRing_some h
        exact .consumer ha hr
      next => cases h

/-! ## What the kernel and the consumer leave alone -/

theorem kernel_frame {f f' : Umem.State} {a : Umem.Action} (ha : isKernel a = true)
    (h : Umem.step x umemConfig f a = some f') :
    f'.user = f.user ∧ f'.held = f.held ∧ a ≠ .populateSubmit ∧ a ≠ .rxReleaseSubmit := by
  cases a with
  | kernelTake =>
      obtain ⟨_, _, -, rfl⟩ := step_kernelTake h
      exact ⟨rfl, rfl, nofun, nofun⟩
  | kernelPublish k =>
      obtain ⟨-, rfl⟩ := step_kernelPublish h
      exact ⟨rfl, rfl, nofun, nofun⟩
  | kernelPost i d =>
      obtain ⟨_, -, rfl⟩ := step_kernelPost h
      exact ⟨rfl, rfl, nofun, nofun⟩
  | _ => cases ha

theorem consumer_frame {r r' : Spsc.State FeedEvent ι α} {a : Spsc.Action FeedEvent ι}
    (ha : isConsumer a = true) (h : Spsc.step L kRingCap r a = some r') :
    r'.prod = r.prod ∧ r'.pushed = r.pushed := by
  have hcons : a.byProducer = false := by
    cases a with
    | pop | popCheck | popWord | popStore | popQuery => rfl
    | _ => cases ha
  obtain ⟨-, -, -, hprod, hpushed⟩ := Spsc.consumer_frame hcons h
  exact ⟨hprod, hpushed⟩

end UltrafastFeed.Handler
