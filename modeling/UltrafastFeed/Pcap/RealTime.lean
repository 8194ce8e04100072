import UltrafastFeed.Clock
import UltrafastFeed.Lib.Pacer
import UltrafastFeed.Pcap.Replay

/-!
# Pcap — replay in real time

`Replay` takes the clock readings as they come. Here they come from a
machine: time passes while the callback runs and while the thread sleeps,
and every reading is the time at which it is made. `timedReplay` is
`replay_at_rate` with the time carried along; without the times it is a
run of `replayAtRate` (`timedReplay_refines`), so what is proved there
holds here. What is new is WHEN the callback is called.

MACHINE. `nanosleep` may be cut short by a signal, which the source
ignores, or take longer than asked; the other durations are arbitrary.
-/

namespace UltrafastFeed.Pcap

open Lib.Machine Lib.Pacer

structure Host where
  /-- When `replay_start_ns` is read. -/
  start : Nat
  /-- From the call for event `i - 1` to the clock reading for event `i`. -/
  busy : Nat → Nat
  /-- How long the `nanosleep` before event `i` takes. -/
  nanosleep : Nat → Timespec → Nat
  /-- From the reading or the sleep to the call for event `i`. -/
  enter : Nat → Nat

/-- When the callback is called for event `i`, the clock having been read
at `read`. -/
def Host.callAt (host : Host) (i read : Nat) (sleepNs : Option UInt64) : Nat :=
  let woken := match sleepNs with
    | some d => read + host.nanosleep i (sleepTime d)
    | none => read
  woken + host.enter i

/-- The calls of the `while` loop, each with its time. -/
def timedLoop (host : Host) (scale : UInt64 → UInt64) (originInjectNs replayStartNs : UInt64) :
    Nat → Nat → Nat → PcapReader → List (Delivery × Nat) × PcapReader
  | 0, _, _, r => ([], r)
  | fuel + 1, i, time, r =>
      if r.eventsRead < r.totalEvents then
        match r.next with
        | (none, r') => ([], r')
        | (some ev, r') =>
            let targetNs := replayStartNs + scale (ev.injectNs - originInjectNs)
            let read := time + host.busy i
            let nowNs := clockNs (clockGettime read)
            let sleepNs := if nowNs < targetNs then some (targetNs - nowNs) else none
            let call := host.callAt i read sleepNs
            let rest := timedLoop host scale originInjectNs replayStartNs fuel (i + 1) call r'
            ((⟨ev, targetNs, sleepNs⟩, call) :: rest.1, rest.2)
      else ([], r)

/-- `replay_at_rate` on the machine. -/
def PcapReader.timedReplay (host : Host) (scale : UInt64 → UInt64) (r : PcapReader) :
    List (Delivery × Nat) × PcapReader :=
  if r.file.isNone ∨ r.totalEvents = 0 then ([], r)
  else
    match r.rewind.2.next with
    | (none, r') => ([], r')
    | (some first, r') =>
        let replayStartNs := clockNs (clockGettime host.start)
        let call := host.callAt 0 host.start none
        let rest := timedLoop host scale first.injectNs replayStartNs r'.left 1 call r'
        ((⟨first, replayStartNs, none⟩, call) :: rest.1, rest.2)

/-! ## It is a replay -/

/-- When the call before the `j`-th of `calls` was made. -/
def before (time : Nat) (calls : List (Delivery × Nat)) : Nat → Nat
  | 0 => time
  | j + 1 => (calls[j]?.map Prod.snd).getD 0

theorem timedLoop_refines {host : Host} {scale : UInt64 → UInt64} {origin start : UInt64}
    {clock : Nat → UInt64} {fuel i time : Nat} {r : PcapReader}
    (hclock : ∀ j, j < (timedLoop host scale origin start fuel i time r).1.length →
      clock (i + j) = clockNs (clockGettime
        (before time (timedLoop host scale origin start fuel i time r).1 j + host.busy (i + j)))) :
    ((timedLoop host scale origin start fuel i time r).1.map Prod.fst,
        (timedLoop host scale origin start fuel i time r).2)
      = replayLoop ⟨scale, clock⟩ origin start fuel i r := by
  induction fuel generalizing i time r with
  | zero => rfl
  | succ fuel ih =>
      rw [timedLoop] at hclock ⊢
      rw [replayLoop]
      by_cases hguard : r.eventsRead < r.totalEvents
      · rw [if_pos hguard] at hclock ⊢
        rw [if_pos hguard]
        cases hn : r.next with
        | mk e r' =>
            cases e with
            | none => rfl
            | some ev =>
                rw [hn] at hclock
                dsimp only at hclock ⊢
                have hhere : clock i = clockNs (clockGettime (time + host.busy i)) :=
                  hclock 0 (Nat.succ_pos _)
                rw [hhere, ← @ih (i + 1) _ r' fun j hj => ?_]
                · rfl
                · have hlater := hclock (j + 1) (Nat.succ_lt_succ hj)
                  rw [show i + 1 + j = i + (j + 1) by omega, hlater]
                  cases j <;> rfl
      · rw [if_neg hguard, if_neg hguard]
        rfl

/-- The readings of a replay, from the times of its calls. -/
def Host.clock (host : Host) (out : List (Delivery × Nat)) : Nat → UInt64
  | 0 => clockNs (clockGettime host.start)
  | n + 1 => clockNs (clockGettime ((out[n]?.map Prod.snd).getD 0 + host.busy (n + 1)))

theorem Host.clock_zero (host : Host) (out : List (Delivery × Nat)) :
    host.clock out 0 = clockNs (clockGettime host.start) := rfl

/-- **Without the times it is a replay**, with the readings it made. -/
theorem timedReplay_refines (host : Host) (scale : UInt64 → UInt64) (r : PcapReader) :
    ((r.timedReplay host scale).1.map Prod.fst, (r.timedReplay host scale).2)
      = r.replayAtRate ⟨scale, host.clock (r.timedReplay host scale).1⟩ := by
  rw [PcapReader.timedReplay, PcapReader.replayAtRate]
  by_cases hguard : r.file.isNone ∨ r.totalEvents = 0
  · rw [if_pos hguard, if_pos hguard]
    rfl
  · rw [if_neg hguard, if_neg hguard]
    cases hn : r.rewind.2.next with
    | mk e r' =>
        cases e with
        | none => rfl
        | some first =>
            dsimp only
            generalize hout : (_ :: (timedLoop host scale first.injectNs
              (clockNs (clockGettime host.start)) r'.left 1 (host.callAt 0 host.start none) r').1)
                = out
            have hloop := @timedLoop_refines host scale first.injectNs
              (clockNs (clockGettime host.start)) (host.clock out) r'.left 1
              (host.callAt 0 host.start none) r' fun j _ => by
                rw [Nat.add_comm 1 j, ← hout]
                cases j <;> rfl
            rw [Host.clock_zero, ← hloop, ← hout]
            rfl

/-! ## When the callback is called -/

/-- The machine as the pacer sees it. -/
def Host.timing (host : Host) : Timing where
  busy := host.busy
  sleep i d := host.nanosleep i (clockGettime d)
  enter := host.enter

/-- The call as a matter of numbers, before the clock wraps. -/
theorem callAt_eq {host : Host} {i time : Nat} (target : UInt64)
    (hfits : time + host.busy i < 2 ^ 64) :
    host.callAt i (time + host.busy i)
        (if clockNs (clockGettime (time + host.busy i)) < target
          then some (target - clockNs (clockGettime (time + host.busy i))) else none)
      = host.timing.call i time target.toNat := by
  have hnow := clockNs_toNat hfits
  show _ = (if time + host.busy i < target.toNat
    then time + host.busy i + host.nanosleep i (clockGettime (target.toNat - (time + host.busy i)))
    else time + host.busy i) + host.enter i
  by_cases hlt : clockNs (clockGettime (time + host.busy i)) < target
  · have hnat := UInt64.lt_iff_toNat_lt.mp hlt
    rw [hnow] at hnat
    rw [if_pos hlt, if_pos hnat, Host.callAt, sleepTime_eq,
      UInt64.toNat_sub_of_le _ _ (UInt64.le_of_lt hlt), hnow]
  · have hnat : ¬ time + host.busy i < target.toNat := by
      rw [UInt64.lt_iff_toNat_lt, hnow] at hlt
      exact hlt
    rw [if_neg hlt, if_neg hnat]
    rfl

theorem le_callAt (host : Host) (i read : Nat) (sleepNs : Option UInt64) :
    read ≤ host.callAt i read sleepNs := by
  cases sleepNs with
  | none => exact Nat.le_add_right _ _
  | some d => exact Nat.le_trans (Nat.le_add_right _ _) (Nat.le_add_right _ _)

/-- The targets of the calls. -/
def targets (out : List (Delivery × Nat)) : List Nat := out.map fun p => p.1.scheduledNs.toNat

/-- The loop calls when the pacer calls, by induction on its turns. -/
theorem timedLoop_calls {host : Host} {scale : UInt64 → UInt64} {origin start : UInt64}
    {fuel i time : Nat} {r : PcapReader}
    (hfits : ∀ p ∈ (timedLoop host scale origin start fuel i time r).1, p.2 < 2 ^ 64) :
    (timedLoop host scale origin start fuel i time r).1.map Prod.snd
      = host.timing.calls i time (targets (timedLoop host scale origin start fuel i time r).1) := by
  induction fuel generalizing i time r with
  | zero => rfl
  | succ fuel ih =>
      rw [timedLoop] at hfits ⊢
      by_cases hguard : r.eventsRead < r.totalEvents
      · rw [if_pos hguard] at hfits ⊢
        cases hn : r.next with
        | mk e r' =>
            cases e with
            | none => rfl
            | some ev =>
                rw [hn] at hfits
                dsimp only at hfits ⊢
                have hcall := hfits _ List.mem_cons_self
                have hread := Nat.lt_of_le_of_lt (le_callAt _ _ _ _) hcall
                have heq := callAt_eq (start + scale (ev.injectNs - origin)) hread
                have hrest := ih fun p hp => hfits p (List.mem_cons_of_mem _ hp)
                rw [targets, List.map_cons, List.map_cons, Timing.calls, hrest, heq]
                rfl
      · rw [if_neg hguard]
        rfl

theorem timedReplay_calls {host : Host} {scale : UInt64 → UInt64} {r : PcapReader}
    (hfits : ∀ p ∈ (r.timedReplay host scale).1, p.2 < 2 ^ 64) :
    (r.timedReplay host scale).1 = [] ∨ ∃ d rest,
      (r.timedReplay host scale).1 = (d, host.start + host.enter 0) :: rest ∧
        d.scheduledNs.toNat = host.start ∧
        rest.map Prod.snd = host.timing.calls 1 (host.start + host.enter 0) (targets rest) := by
  rw [PcapReader.timedReplay] at hfits ⊢
  by_cases hguard : r.file.isNone ∨ r.totalEvents = 0
  · exact .inl (by rw [if_pos hguard])
  · rw [if_neg hguard] at hfits ⊢
    cases hn : r.rewind.2.next with
    | mk e r' =>
        rw [hn] at hfits
        cases e with
        | none => exact .inl rfl
        | some first =>
            have hcall : host.start + host.enter 0 < 2 ^ 64 := hfits _ List.mem_cons_self
            refine .inr ⟨_, _, rfl, clockNs_toNat (by omega), ?_⟩
            exact timedLoop_calls fun p hp => hfits p (List.mem_cons_of_mem _ hp)

/-- No `nanosleep` is cut short. -/
def Host.Complete (host : Host) : Prop := ∀ i ts, ts.ns ≤ host.nanosleep i ts

/-- A sleep and the way to the call take at most `ε` longer than asked. -/
def Host.Prompt (host : Host) (ε : Nat) : Prop :=
  ∀ i ts, host.nanosleep i ts + host.enter i ≤ ts.ns + ε

theorem Host.Complete.timing {host : Host} (h : host.Complete) : host.timing.Complete := by
  intro i d
  have hlong := h i (clockGettime d)
  rwa [gettime_ns] at hlong

theorem Host.Prompt.timing {host : Host} {ε : Nat} (h : host.Prompt ε) :
    host.timing.Prompt ε := by
  intro i d
  have hprompt := h i (clockGettime d)
  rwa [gettime_ns] at hprompt

theorem Host.Prompt.enter_le {host : Host} {ε : Nat} (h : host.Prompt ε) (i : Nat) :
    host.enter i ≤ ε := by
  have hprompt : host.nanosleep i ⟨0, 0⟩ + host.enter i ≤ 0 + ε := h i ⟨0, 0⟩
  omega

section OnTime

variable {host : Host} {scale : UInt64 → UInt64} {r : PcapReader}

theorem timedReplay_not_early (hfits : ∀ p ∈ (r.timedReplay host scale).1, p.2 < 2 ^ 64)
    (h : host.Complete) : ∀ p ∈ (r.timedReplay host scale).1, p.1.scheduledNs.toNat ≤ p.2 := by
  rcases timedReplay_calls hfits with hnil | ⟨d, rest, hout, hstart, hcalls⟩
  · rw [hnil]
    exact fun p hp => absurd hp List.not_mem_nil
  · rw [hout]
    intro p hp
    rcases List.mem_cons.mp hp with rfl | hp
    · rw [hstart]
      exact Nat.le_add_right _ _
    · have hall := calls_ge h.timing 1 (host.start + host.enter 0) (targets rest)
      rw [← hcalls, targets, List.forall₂_map_left_iff, List.forall₂_map_right_iff,
        List.forall₂_same] at hall
      exact hall p hp

theorem timedReplay_late (hfits : ∀ p ∈ (r.timedReplay host scale).1, p.2 < 2 ^ 64) {ε : Nat}
    (h : host.Prompt ε) {n : Nat} {p : Delivery × Nat}
    (hp : (r.timedReplay host scale).1[n]? = some p) :
    ∃ k q, k ≤ n ∧ (r.timedReplay host scale).1[k]? = some q ∧
      p.2 ≤ q.1.scheduledNs.toNat + ε + host.timing.work (k + 1) (n - k) := by
  rcases timedReplay_calls hfits with hnil | ⟨d, rest, hout, hstart, hcalls⟩
  · rw [hnil] at hp
    cases hp
  · rw [hout] at hp ⊢
    have henter := h.enter_le 0
    cases n with
    | zero =>
        cases hp
        refine ⟨0, _, Nat.le_refl _, rfl, ?_⟩
        rw [hstart]
        dsimp only
        omega
    | succ n =>
        have hcall : (host.timing.calls 1 (host.start + host.enter 0) (targets rest))[n]?
            = some p.2 := by
          rw [← hcalls, List.getElem?_map, show rest[n]? = some p from hp]
          rfl
        rcases calls_le h.timing hcall with hle | ⟨k, τ, hk, hτ, hle⟩
        · refine ⟨0, _, Nat.zero_le _, rfl, ?_⟩
          rw [hstart, Nat.sub_zero, Nat.zero_add]
          omega
        · rw [targets, List.getElem?_map, Option.map_eq_some_iff] at hτ
          obtain ⟨q, hq, rfl⟩ := hτ
          refine ⟨k + 1, q, Nat.succ_le_succ hk, hq, ?_⟩
          rw [Nat.succ_sub_succ, Nat.add_comm k 1]
          exact hle

/-- With room between the targets no delay is carried over. -/
theorem timedReplay_punctual (hfits : ∀ p ∈ (r.timedReplay host scale).1, p.2 < 2 ^ 64) {ε : Nat}
    (h : host.Prompt ε)
    (hgaps : ∀ n p q, (r.timedReplay host scale).1[n]? = some p →
      (r.timedReplay host scale).1[n + 1]? = some q →
        p.1.scheduledNs.toNat + (host.busy (n + 1) + host.enter (n + 1))
          ≤ q.1.scheduledNs.toNat) :
    ∀ p ∈ (r.timedReplay host scale).1, p.2 ≤ p.1.scheduledNs.toNat + ε := by
  intro p hp
  obtain ⟨n, hn⟩ := List.mem_iff_getElem?.mp hp
  obtain ⟨k, q, hk, hq, hle⟩ := timedReplay_late hfits h hn
  generalize (r.timedReplay host scale).1 = out at hgaps hn hq
  have htargets : ∀ m a b, (targets out)[m]? = some a → (targets out)[m + 1]? = some b →
      a + (host.timing.busy (m + 1) + host.timing.enter (m + 1)) ≤ b := by
    intro m a b ha hb
    rw [targets, List.getElem?_map, Option.map_eq_some_iff] at ha hb
    obtain ⟨p', hp', rfl⟩ := ha
    obtain ⟨q', hq', rfl⟩ := hb
    exact hgaps m p' q' hp' hq'
  have hqt : (targets out)[k]? = some q.1.scheduledNs.toNat := by
    rw [targets, List.getElem?_map, hq]
    rfl
  have hpt : (targets out)[k + (n - k)]? = some p.1.scheduledNs.toNat := by
    rw [Nat.add_sub_cancel' hk, targets, List.getElem?_map, hn]
    rfl
  have hwork := gaps_absorb_work htargets hqt hpt
  omega

end OnTime

/-- **Replay is on time.** On every machine, for every reader and every
scaling: the replay is that of `replay_at_rate` with the readings of the
machine's clock, the first at the start and each later one when the call
before it and the read in between are over; and as long as the clock does
not wrap, if no sleep is cut short, no event is delivered before its
scheduled time; if a sleep and the way to the callback overshoot by at
most `ε`, every event is delivered within `ε` of the scheduled time of
some event no later in the file, plus the time that callbacks and reads
have taken since; and if these fit between any two scheduled times, every
event is delivered within `ε` of its own. -/
theorem replay_on_time (host : Host) (scale : UInt64 → UInt64) (r : PcapReader) :
    let out := (r.timedReplay host scale).1
    (out.map Prod.fst, (r.timedReplay host scale).2)
      = r.replayAtRate ⟨scale, host.clock out⟩ ∧
    ((∀ p ∈ out, p.2 < 2 ^ 64) →
      (host.Complete → ∀ p ∈ out, p.1.scheduledNs.toNat ≤ p.2) ∧
      ∀ ε, host.Prompt ε →
        (∀ n p, out[n]? = some p → ∃ k q, k ≤ n ∧ out[k]? = some q ∧
          p.2 ≤ q.1.scheduledNs.toNat + ε + host.timing.work (k + 1) (n - k)) ∧
        ((∀ n p q, out[n]? = some p → out[n + 1]? = some q →
            p.1.scheduledNs.toNat + (host.busy (n + 1) + host.enter (n + 1))
              ≤ q.1.scheduledNs.toNat) →
          ∀ p ∈ out, p.2 ≤ p.1.scheduledNs.toNat + ε)) := by
  intro out
  refine ⟨timedReplay_refines host scale r, fun hfits => ?_⟩
  exact ⟨timedReplay_not_early hfits, fun ε h =>
    ⟨fun n p => timedReplay_late hfits h, timedReplay_punctual hfits h⟩⟩

/-- Reads and callbacks that take 10 ns, and sleeps that take 7 ns longer
than asked. -/
def idleHost : Host := ⟨5000, fun _ => 10, fun _ ts => ts.ns + 7, fun _ => 1⟩

theorem idleHost_complete : idleHost.Complete := fun _ _ => Nat.le_add_right _ _

theorem idleHost_prompt : idleHost.Prompt 8 := by
  intro i ts
  show ts.ns + 7 + 1 ≤ ts.ns + 8
  omega

/-- Two events of a file cut off in its third, half a microsecond
apart. -/
def halfMicro : List UInt8 :=
  header 3 ++ (record { injectNs := 1000 } ++ record { injectNs := 1500 } ++ [1, 2, 3])

theorem halfMicro_opens :
    PcapReader.fresh.open (some halfMicro) = (⟨some ⟨halfMicro, 24⟩, 3, 0⟩, true) :=
  open_header PcapReader.fresh 3 _

theorem replay_on_time_halfMicro :
    ∃ r, PcapReader.fresh.open (some halfMicro) = (r, true) ∧
      (r.timedReplay idleHost id).1.map (fun p => (p.1.scheduledNs.toNat, p.2))
        = [(5000, 5001), (5500, 5508)] ∧
      ∀ p ∈ (r.timedReplay idleHost id).1,
        p.1.scheduledNs.toNat ≤ p.2 ∧ p.2 ≤ p.1.scheduledNs.toNat + 8 := by
  have htimes : ((PcapReader.mk (some ⟨halfMicro, 24⟩) 3 0).timedReplay idleHost id).1.map
      (fun p => (p.1.scheduledNs.toNat, p.2)) = [(5000, 5001), (5500, 5508)] := by
    decide +kernel
  obtain ⟨hearly, hlate⟩ := (replay_on_time idleHost id ⟨some ⟨halfMicro, 24⟩, 3, 0⟩).2
    (by decide +kernel)
  refine ⟨_, halfMicro_opens, htimes, fun p hp => ⟨hearly idleHost_complete p hp, ?_⟩⟩
  refine (hlate 8 idleHost_prompt).2 (fun n p q hn hq => ?_) p hp
  have hn' := congrArg (Option.map fun p => (p.1.scheduledNs.toNat, p.2)) hn
  have hq' := congrArg (Option.map fun p => (p.1.scheduledNs.toNat, p.2)) hq
  rw [← List.getElem?_map, htimes] at hn' hq'
  cases n with
  | zero =>
      obtain ⟨hp, -⟩ := Prod.mk.inj (Option.some.inj hn')
      obtain ⟨hq, -⟩ := Prod.mk.inj (Option.some.inj hq')
      rw [← hp, ← hq]
      decide
  | succ n => cases hq'

end UltrafastFeed.Pcap
