import UltrafastFeed.Lib.Statistics
import UltrafastFeed.Pcap.RealTime
import UltrafastFeed.Pcap.Schedule
import UltrafastFeed.Tools.Generate

/-!
# Tools — Report

`do_replay` of `replay_feed.cpp`: a capture replayed on a machine, and
the report about how late the events were delivered. A signed overflow or
an index outside `drifts` is undefined behaviour, and the result then is
`none`.

MACHINE. The callback reads the clock some time after it is called;
`reserve` may throw, which nobody catches; `double` arithmetic rounds.
-/

namespace UltrafastFeed.ReplayFeed

open Lib.ByteFile Lib.Statistics Pcap

/-! ## The model -/

structure Machine where
  host : Host
  /-- From the call of the callback for event `i` to its clock reading. -/
  look : Nat → Nat
  double : Rounding
  /-- Whether `drifts.reserve(n)` succeeds. -/
  reserve : UInt64 → Bool

/-- `static_cast<int64_t>`. -/
def int64 (x : UInt64) : Int := x.toBitVec.toInt

/-- The result of a signed operation, if it does not overflow. -/
def inInt64 (z : Int) : Option Int := if -2 ^ 63 ≤ z ∧ z < 2 ^ 63 then some z else none

def drift (nowNs scheduledNs : UInt64) : Option Int := inInt64 (int64 nowNs - int64 scheduledNs)

/-- What the calls of the callback push, from call `i` on. -/
def drifts (look : Nat → Nat) : Nat → List (Delivery × Nat) → Option (List Int)
  | _, [] => some []
  | i, (d, call) :: out => do
      let x ← drift (clockNs (clockGettime (call + look i))) d.scheduledNs
      let xs ← drifts look (i + 1) out
      some (x :: xs)

structure Report where
  count : Nat
  total : UInt64
  mean : ℚ
  min : Int
  p50 : Int
  p99 : Int
  max : Int
  deriving DecidableEq, Repr

/-- The statistics, of drifts that are not empty. -/
def report (d : Rounding) (total : UInt64) (drifts : List Int) : Option Report := do
  let sum ← (sorted drifts).foldlM (fun sum x => inInt64 (sum + x)) 0
  let pct := fun p : ℚ => (sorted drifts)[d.rank (d.round p) (drifts.length - 1)]?
  let min ← (sorted drifts)[0]?
  let max ← (sorted drifts)[drifts.length - 1]?
  let p50 ← pct (1 / 2)
  let p99 ← pct (99 / 100)
  some ⟨drifts.length, total, d.mean sum drifts.length, min, p50, p99, max⟩

/-- The ways out of `do_replay`. -/
inductive Replayed where
  | invalid
  | noEvents
  | reserveFailed
  | nothingReplayed
  | complete (report : Report)
  deriving DecidableEq, Repr

/-- `do_replay`, of the file found at the path. -/
def doReplay (m : Machine) (scale : UInt64 → UInt64) (file : Option (List UInt8)) :
    Option Replayed :=
  match PcapReader.fresh.open file with
  | (_, false) => some .invalid
  | (reader, true) =>
      if reader.totalEvents = 0 then some .noEvents
      else if m.reserve reader.totalEvents then do
        let ds ← drifts m.look 0 (reader.timedReplay m.host scale).1
        if ds = [] then some .nothingReplayed
        else (report m.double reader.totalEvents ds).map .complete
      else some .reserveFailed

/-! ## Drifts are latenesses -/

/-- How late callback `i` saw its event. -/
def late (look : Nat → Nat) (i : Nat) (p : Delivery × Nat) : Int :=
  ((p.2 + look i : Nat) : Int) - p.1.scheduledNs.toNat

/-- From call `i` on. -/
def lateness (look : Nat → Nat) : Nat → List (Delivery × Nat) → List Int
  | _, [] => []
  | i, p :: out => late look i p :: lateness look (i + 1) out

theorem lateness_length (look : Nat → Nat) (i : Nat) (out : List (Delivery × Nat)) :
    (lateness look i out).length = out.length := by
  induction out generalizing i with
  | nil => rfl
  | cons p out ih => rw [lateness, List.length_cons, List.length_cons, ih]

theorem lateness_getElem? (look : Nat → Nat) (i : Nat) (out : List (Delivery × Nat)) (n : Nat) :
    (lateness look i out)[n]?
      = out[n]?.map (late look (i + n)) := by
  induction out generalizing i n with
  | nil => rfl
  | cons p out ih =>
      cases n with
      | zero => rfl
      | succ n =>
          rw [lateness, List.getElem?_cons_succ, List.getElem?_cons_succ, ih,
            show i + 1 + n = i + (n + 1) by omega]

theorem mem_lateness {look : Nat → Nat} {out : List (Delivery × Nat)} {x : Int}
    (hx : x ∈ lateness look 0 out) :
    ∃ n p, out[n]? = some p ∧ x = late look n p := by
  obtain ⟨n, hn⟩ := List.mem_iff_getElem?.mp hx
  rw [lateness_getElem?, Option.map_eq_some_iff] at hn
  obtain ⟨p, hp, rfl⟩ := hn
  rw [Nat.zero_add]
  exact ⟨n, p, hp, rfl⟩

theorem int64_of_lt {x : UInt64} (h : x.toNat < 2 ^ 63) : int64 x = x.toNat := by
  rw [int64, BitVec.toInt_eq_toNat_of_lt]
  · rfl
  · show 2 * x.toNat < 2 ^ 64
    omega

theorem inInt64_of {z : Int} (hlo : -2 ^ 63 ≤ z) (hhi : z < 2 ^ 63) : inInt64 z = some z :=
  if_pos ⟨hlo, hhi⟩

/-- In the first 292 years no subtraction overflows and every drift is
how late its event was. -/
theorem drifts_eq {look : Nat → Nat} {i : Nat} {out : List (Delivery × Nat)}
    (hnow : ∀ n p, out[n]? = some p → p.2 + look (i + n) < 2 ^ 63)
    (hsched : ∀ p ∈ out, p.1.scheduledNs.toNat < 2 ^ 63) :
    drifts look i out = some (lateness look i out) := by
  induction out generalizing i with
  | nil => rfl
  | cons p out ih =>
      obtain ⟨d, call⟩ := p
      have hcall : call + look i < 2 ^ 63 := hnow 0 _ rfl
      have hd : d.scheduledNs.toNat < 2 ^ 63 := hsched _ List.mem_cons_self
      have hclock := @clockNs_toNat (call + look i) (by omega)
      have hfirst : drift (clockNs (clockGettime (call + look i))) d.scheduledNs
          = some (late look i (d, call)) := by
        rw [drift, int64_of_lt (by rw [hclock]; exact hcall), int64_of_lt hd, hclock,
          inInt64_of (by omega) (by omega)]
        rfl
      have hrest := @ih (i + 1)
        (fun n p hp => by
          rw [show i + 1 + n = i + (n + 1) by omega]
          exact hnow (n + 1) p hp)
        (fun p hp => hsched p (List.mem_cons_of_mem _ hp))
      rw [drifts, hfirst, hrest]
      rfl

/-! ## The report -/

/-- A sum of values that are not negative does not overflow before its
end. -/
theorem sum_checked {xs : List Int} {acc : Int} (hacc : 0 ≤ acc) (hxs : ∀ x ∈ xs, 0 ≤ x)
    (hsum : acc + xs.sum < 2 ^ 63) :
    xs.foldlM (fun sum x => inInt64 (sum + x)) acc = some (acc + xs.sum) := by
  induction xs generalizing acc with
  | nil => simp
  | cons x xs ih =>
      rw [List.sum_cons] at hsum ⊢
      have hx := hxs x List.mem_cons_self
      have htail := List.sum_nonneg fun y hy => hxs y (List.mem_cons_of_mem _ hy)
      have hrest := @ih (acc + x) (by omega) (fun y hy => hxs y (List.mem_cons_of_mem _ hy))
        (by omega)
      rw [List.foldlM_cons, inInt64_of (by omega) (by omega)]
      show xs.foldlM _ (acc + x) = _
      rw [hrest, Int.add_assoc]

/-- What a report says about the values it was made from. -/
structure Report.Summarises (rep : Report) (xs : List Int) : Prop where
  count : rep.count = xs.length
  mem : rep.min ∈ xs ∧ rep.p50 ∈ xs ∧ rep.p99 ∈ xs ∧ rep.max ∈ xs
  bounds : ∀ x ∈ xs, rep.min ≤ x ∧ x ≤ rep.max
  mean : rep.min ≤ rep.mean ∧ rep.mean ≤ rep.max
  order : rep.p50 ≤ rep.p99
  /-- Half of the values are no greater than `p50`, and no more than half
  are smaller. -/
  median : xs.length ≤ 2 * xs.countP (· ≤ rep.p50) ∧ 2 * xs.countP (· < rep.p50) ≤ xs.length

/-- **The statistics.** Of values that are not negative and whose sum a
`double` holds. -/
theorem report_summarises (d : Rounding) (total : UInt64) {xs : List Int} (hne : xs ≠ [])
    (hnonneg : ∀ x ∈ xs, 0 ≤ x) (hsum : xs.sum ≤ 2 ^ 53) (hlen : xs.length ≤ 2 ^ 53) :
    ∃ rep, report d total xs = some rep ∧ rep.total = total ∧ rep.Summarises xs := by
  have hpos : 0 < xs.length := List.length_pos_iff.mpr hne
  have hlast : xs.length - 1 ≤ 2 ^ 53 := by omega
  have hhalf : d.round (1 / 2) = 1 / 2 := d.exact_half (n := 1) (by norm_num)
  have hp99 : d.round (99 / 100) ≤ 1 := by
    have hone : d.round (1 : ℕ) = (1 : ℕ) := d.exact_nat (by norm_num)
    rw [Nat.cast_one] at hone
    rw [← hone]
    exact d.mono (by norm_num)
  have hp50 : d.round (1 / 2) ≤ d.round (99 / 100) := d.mono (by norm_num)
  have hrank50 := d.rank_le (hp50.trans hp99) hlast
  have hrank99 := d.rank_le hp99 hlast
  obtain ⟨lo, hlo⟩ := @sorted_some _ _ xs 0 hpos
  obtain ⟨hi, hhi⟩ := @sorted_some _ _ xs (xs.length - 1) (by omega)
  obtain ⟨v50, hv50⟩ := @sorted_some _ _ xs (d.rank (d.round (1 / 2)) (xs.length - 1)) (by omega)
  obtain ⟨v99, hv99⟩ := @sorted_some _ _ xs (d.rank (d.round (99 / 100)) (xs.length - 1))
    (by omega)
  have hsorted : (sorted xs).sum = xs.sum := (sorted_perm xs).sum_eq
  have hchecked : (sorted xs).foldlM (fun sum x => inInt64 (sum + x)) 0 = some xs.sum := by
    rw [@sum_checked (sorted xs) 0 (le_refl _)
      (fun x hx => hnonneg x ((sorted_perm xs).mem_iff.mp hx)) (by rw [hsorted]; omega), hsorted,
      Int.zero_add]
  have hbounds : ∀ x ∈ xs, lo ≤ x ∧ x ≤ hi := fun x hx => sorted_bounds hlo hhi hx
  have hmem : hi ∈ xs := mem_of_sorted hhi
  have hmax : hi ≤ 2 ^ 53 := (List.single_le_sum hnonneg hi hmem).trans hsum
  have hmin := hnonneg lo (mem_of_sorted hlo)
  have hmean := d.mean_between hpos hlen
    (by rw [abs_of_nonneg (List.sum_nonneg hnonneg)]; exact hsum) hbounds
    (by rw [abs_of_nonneg hmin]; exact (hbounds hi hmem).1.trans hmax)
    (by rw [abs_of_nonneg (hnonneg hi hmem)]; exact hmax)
  refine ⟨⟨xs.length, total, d.mean xs.sum xs.length, lo, v50, v99, hi⟩, ?_, rfl, ?_⟩
  · rw [report, hchecked]
    simp only [hlo, hhi, hv50, hv99, Option.bind_eq_bind, Option.bind_some]
  · obtain ⟨hle, hlt⟩ := rank_counts hv50
    rw [hhalf, d.rank_half hlast] at hle hlt
    exact {
      count := rfl
      mem := ⟨mem_of_sorted hlo, mem_of_sorted hv50, mem_of_sorted hv99, hmem⟩
      bounds := hbounds
      mean := hmean
      order := sorted_mono (d.rank_mono hp50 hlast) hv50 hv99
      median := ⟨by dsimp only; omega, by dsimp only; omega⟩ }

/-! ## Replaying any capture -/

section Capture

variable {m : Machine} {scale : UInt64 → UInt64} {bs : List UInt8} {r : PcapReader}

theorem timedReplay_events (host : Host) (scale : UInt64 → UInt64)
    (hopen : PcapReader.fresh.open (some bs) = (r, true)) :
    (r.timedReplay host scale).1.map (fun p => p.1.event) = events bs := by
  have hrefines := congrArg Prod.fst (timedReplay_refines host scale r)
  have hevents := ((atRecord_open hopen).replay_events
    ⟨scale, host.clock (r.timedReplay host scale).1⟩).1
  rw [← hevents, ← hrefines, List.map_map]
  rfl

theorem timedReplay_length (host : Host) (scale : UInt64 → UInt64)
    (hopen : PcapReader.fresh.open (some bs) = (r, true)) :
    (r.timedReplay host scale).1.length = recordCount bs := by
  rw [← events_length, ← timedReplay_events host scale hopen, List.length_map]

/-- `do_replay` behind its early exits. -/
theorem doReplay_open (hopen : PcapReader.fresh.open (some bs) = (r, true))
    (htotal : r.totalEvents ≠ 0) (hreserve : m.reserve r.totalEvents = true) {xs : List Int}
    (hxs : drifts m.look 0 (r.timedReplay m.host scale).1 = some xs) :
    doReplay m scale (some bs)
      = if xs = [] then some .nothingReplayed
        else (report m.double r.totalEvents xs).map .complete := by
  rw [doReplay, hopen]
  dsimp only
  rw [if_neg htotal, if_pos hreserve, hxs]
  rfl

/-- With complete sleeps and a clock within 63 bits the drifts are the
delays, and none is negative. -/
theorem drifts_replay (hcomplete : m.host.Complete)
    (htime : ∀ n p, (r.timedReplay m.host scale).1[n]? = some p → p.2 + m.look n < 2 ^ 63) :
    drifts m.look 0 (r.timedReplay m.host scale).1
        = some (lateness m.look 0 (r.timedReplay m.host scale).1) ∧
      ∀ x ∈ lateness m.look 0 (r.timedReplay m.host scale).1, 0 ≤ x := by
  have hcall : ∀ p ∈ (r.timedReplay m.host scale).1, p.2 < 2 ^ 63 := by
    intro p hp
    obtain ⟨n, hn⟩ := List.mem_iff_getElem?.mp hp
    exact Nat.lt_of_le_of_lt (Nat.le_add_right _ _) (htime n p hn)
  have hearly := timedReplay_not_early
    (fun p hp => Nat.lt_trans (hcall p hp) (by decide)) hcomplete
  constructor
  · apply drifts_eq
    · intro n p hp
      rw [Nat.zero_add]
      exact htime n p hp
    · exact fun p hp => Nat.lt_of_le_of_lt (hearly p hp) (hcall p hp)
  · intro x hx
    obtain ⟨n, p, hp, rfl⟩ := mem_lateness hx
    have hle := hearly p (List.mem_of_getElem? hp)
    rw [late]
    omega

theorem lateness_le {lag bound : Nat} (hlook : ∀ i, m.look i ≤ lag)
    {out : List (Delivery × Nat)}
    (hbound : ∀ p ∈ out, p.2 + lag ≤ p.1.scheduledNs.toNat + bound) :
    ∀ x ∈ lateness m.look 0 out, x ≤ bound := by
  intro x hx
  obtain ⟨n, p, hp, rfl⟩ := mem_lateness hx
  have hle := hbound p (List.mem_of_getElem? hp)
  have hn := hlook n
  rw [late]
  omega

/-- A replay that delivers something is reported on. -/
theorem lateness_sum_le {out : List (Delivery × Nat)} {bound : Nat}
    (hle : ∀ x ∈ lateness m.look 0 out, x ≤ bound) :
    (lateness m.look 0 out).sum ≤ (out.length * bound : Nat) := by
  have hcard := List.sum_le_card_nsmul _ (bound : Int) hle
  rw [lateness_length, nsmul_eq_mul] at hcard
  exact_mod_cast hcard

theorem doReplay_complete (hopen : PcapReader.fresh.open (some bs) = (r, true))
    (hreserve : m.reserve r.totalEvents = true) (hcomplete : m.host.Complete)
    (htime : ∀ n p, (r.timedReplay m.host scale).1[n]? = some p → p.2 + m.look n < 2 ^ 63)
    (hsum : (lateness m.look 0 (r.timedReplay m.host scale).1).sum ≤ 2 ^ 53)
    (hfew : recordCount bs ≤ 2 ^ 53) (hsome : recordCount bs ≠ 0) :
    ∃ rep, doReplay m scale (some bs) = some (.complete rep) ∧
      rep.total = r.totalEvents ∧ rep.count = recordCount bs ∧ rep.count ≤ rep.total.toNat ∧
      0 ≤ rep.min ∧ rep.Summarises (lateness m.look 0 (r.timedReplay m.host scale).1) := by
  have hle : recordCount bs ≤ r.totalEvents.toNat := by
    rw [(atRecord_open hopen).total]
    exact Nat.min_le_left _ _
  have hne : r.totalEvents ≠ 0 := by
    intro hzero
    rw [hzero] at hle
    exact hsome (Nat.le_zero.mp hle)
  obtain ⟨hdrifts, hnonneg⟩ := drifts_replay hcomplete htime
  have hlen : (lateness m.look 0 (r.timedReplay m.host scale).1).length = recordCount bs := by
    rw [lateness_length, timedReplay_length m.host scale hopen]
  have hopened := doReplay_open hopen hne hreserve hdrifts
  generalize lateness m.look 0 (r.timedReplay m.host scale).1 = xs at *
  have hxs : xs ≠ [] := by
    rintro rfl
    exact hsome hlen.symm
  obtain ⟨rep, hrep, hreptotal, hsummary⟩ :=
    report_summarises m.double r.totalEvents hxs hnonneg hsum (by rw [hlen]; exact hfew)
  refine ⟨rep, ?_, hreptotal, hsummary.count.trans hlen, ?_, hnonneg _ hsummary.mem.1, hsummary⟩
  · rw [hopened, if_neg hxs, hrep]
    rfl
  · rw [hreptotal, hsummary.count, hlen]
    exact hle

end Capture

/-- **The report of a replay.** For every capture that opens, every
scaling of its offsets and every machine whose sleeps are not cut short,
as long as the clock fits 63 bits, the file holds at most `2 ^ 53` records
and the drifts add up to at most `2 ^ 53`: no signed operation overflows
and no index leaves `drifts`. A file that declares nothing is reported as
such; otherwise `drifts.reserve` for the declared count throws, which ends
the tool, or the file holds no whole record, or the report counts the
records, no more than declared and so no more than reserved for, and its
figures are those of the true delays, none negative. -/
theorem replay_report (m : Machine) (scale : UInt64 → UInt64) (bs : List UInt8) (r : PcapReader)
    (hopen : PcapReader.fresh.open (some bs) = (r, true)) (hcomplete : m.host.Complete)
    (htime : ∀ n p, (r.timedReplay m.host scale).1[n]? = some p → p.2 + m.look n < 2 ^ 63)
    (hsum : (lateness m.look 0 (r.timedReplay m.host scale).1).sum ≤ 2 ^ 53)
    (hfew : recordCount bs ≤ 2 ^ 53) :
    (r.totalEvents = 0 → doReplay m scale (some bs) = some .noEvents) ∧
    (r.totalEvents ≠ 0 → m.reserve r.totalEvents = false →
      doReplay m scale (some bs) = some .reserveFailed) ∧
    (r.totalEvents ≠ 0 → m.reserve r.totalEvents = true → recordCount bs = 0 →
      doReplay m scale (some bs) = some .nothingReplayed) ∧
    (recordCount bs ≠ 0 → m.reserve r.totalEvents = true →
      ∃ rep, doReplay m scale (some bs) = some (.complete rep) ∧
        rep.total = r.totalEvents ∧ rep.count = recordCount bs ∧ rep.count ≤ rep.total.toNat ∧
        0 ≤ rep.min ∧ rep.Summarises (lateness m.look 0 (r.timedReplay m.host scale).1)) := by
  refine ⟨fun hzero => ?_, fun hne hthrows => ?_, fun hne hreserve hnone => ?_,
    fun hsome hreserve => doReplay_complete hopen hreserve hcomplete htime hsum hfew hsome⟩
  · rw [doReplay, hopen]
    dsimp only
    rw [if_pos hzero]
  · rw [doReplay, hopen]
    dsimp only
    rw [if_neg hne, hthrows]
    rfl
  · have hnil : (r.timedReplay m.host scale).1 = [] :=
      List.eq_nil_of_length_eq_zero ((timedReplay_length m.host scale hopen).trans hnone)
    rw [@doReplay_open m scale bs r hopen hne hreserve [] (by rw [hnil]; rfl), if_pos rfl]

/-- The clock is read 2 ns after the call, and `reserve` fails for more
than a thousand drifts. -/
def idleMachine : Machine where
  host := idleHost
  look _ := 2
  double := .none
  reserve n := n ≤ 1000

theorem replay_report_halfMicro :
    ∃ rep, doReplay idleMachine id (some halfMicro) = some (.complete rep) ∧
      rep.count = 2 ∧ rep.total = 3 ∧ rep.min = 3 ∧ rep.max = 10 := by
  have hlate : lateness idleMachine.look 0
      ((PcapReader.mk (some ⟨halfMicro, 24⟩) 3 0).timedReplay idleMachine.host id).1 = [3, 10] := by
    decide +kernel
  have hcount : recordCount halfMicro = 2 := by decide +kernel
  have htime : ∀ p ∈ ((PcapReader.mk (some ⟨halfMicro, 24⟩) 3 0).timedReplay
      idleMachine.host id).1, p.2 + 2 < 2 ^ 63 := by
    decide +kernel
  obtain ⟨-, -, -, hcomplete⟩ := replay_report idleMachine id halfMicro _ halfMicro_opens
    idleHost_complete (fun n p hp => htime p (List.mem_of_getElem? hp))
    (by rw [hlate]; decide) (by rw [hcount]; decide)
  obtain ⟨rep, hrep, htotal, hrepcount, -, -, hsummary⟩ :=
    hcomplete (by rw [hcount]; decide) (by decide)
  rw [hlate] at hsummary
  have hmin := hsummary.bounds 3 (by decide)
  have hmax := hsummary.bounds 10 (by decide)
  obtain ⟨hinmin, -, -, hinmax⟩ := hsummary.mem
  simp only [List.mem_cons, List.not_mem_nil, or_false] at hinmin hinmax
  exact ⟨rep, hrep, hrepcount.trans hcount, htotal, by omega, by omega⟩

/-! ## Replaying a generated capture -/

/-- `static_cast<uint64_t>(static_cast<double>(offset) / rate)`. -/
def scaleAt (d : Rounding) (rate : ℚ) (offset : UInt64) : UInt64 :=
  UInt64.ofNat ⌊d.round (d.round offset.toNat / rate)⌋₊

/-- When event `i` of a generated capture is due, from the start of the
replay. -/
def offsetNs (d : Rounding) (rate : ℚ) (i : Nat) : Nat := ⌊d.round ((i * 500000 : Nat) / rate)⌋₊

section Generated

variable {d : Rounding} {rate : ℚ}

theorem scaleAt_spacing {i : Nat} (h : i * 500000 ≤ 2 ^ 53) :
    scaleAt d rate (UInt64.ofNat (i * 500000)) = UInt64.ofNat (offsetNs d rate i) := by
  have hnat : (UInt64.ofNat (i * 500000)).toNat = i * 500000 := by
    rw [UInt64.toNat_ofNat', Nat.mod_eq_of_lt (by omega)]
  rw [scaleAt, hnat, d.exact_nat h, offsetNs]

theorem scaleAt_zero : scaleAt d rate 0 = 0 := by
  have hzero : d.round 0 = 0 := by exact_mod_cast d.exact_nat (Nat.zero_le _)
  rw [scaleAt, UInt64.toNat_zero, Nat.cast_zero, hzero, zero_div, hzero, Nat.floor_zero]
  rfl

theorem offsetNs_mono (hrate : 0 < rate) {i j : Nat} (hij : i ≤ j) :
    offsetNs d rate i ≤ offsetNs d rate j := by
  have hcast : ((i * 500000 : Nat) : ℚ) ≤ (j * 500000 : Nat) := by
    exact_mod_cast Nat.mul_le_mul_right 500000 hij
  apply Nat.floor_mono
  apply d.mono
  exact div_le_div_of_nonneg_right hcast hrate.le

theorem offsetNs_one {i : Nat} (h : i * 500000 ≤ 2 ^ 53) : offsetNs d 1 i = i * 500000 := by
  rw [offsetNs, div_one, d.exact_nat h, Nat.floor_natCast]

/-- The spacing of the timestamps, whether or not they wrap. -/
theorem inject_spacing (baseNs : UInt64) (i : Nat) :
    (generatedEvent baseNs (UInt64.ofNat i)).injectNs
        - (generatedEvent baseNs (UInt64.ofNat 0)).injectNs
      = UInt64.ofNat (i * 500000) := by
  have hfirst : (generatedEvent baseNs (UInt64.ofNat 0)).injectNs = baseNs := by
    show baseNs + 0 * 500000 = baseNs
    rw [UInt64.zero_mul, UInt64.add_zero]
  rw [hfirst]
  show baseNs + UInt64.ofNat i * 500000 - baseNs = _
  rw [UInt64.add_comm, UInt64.add_sub_cancel, UInt64.ofNat_mul]
  rfl

variable {baseNs count : UInt64} {bs : List UInt8}

theorem capture_opens (baseNs count : UInt64) :
    ∃ r, PcapReader.fresh.open (some (capture baseNs count)) = (r, true) ∧
      r.totalEvents = count ∧
      events (capture baseNs count) = (generatedEvents baseNs count.toNat).map stored := by
  have hlen := generatedEvents_length baseNs count.toNat
  obtain ⟨r, hopen, htotal, hdrain⟩ :=
    @reads_back PcapReader.fresh (generatedEvents baseNs count.toNat) [] count
      (Nat.le_of_eq hlen.symm)
  rw [List.append_nil] at hopen
  rw [List.take_of_length_le (Nat.le_of_eq hlen)] at hdrain
  exact ⟨r, hopen, htotal, (drains_events hopen).unique hdrain⟩

section Delivered

variable {host : Host} {r : PcapReader} {n : Nat} {p : Delivery × Nat}
variable (hopen : PcapReader.fresh.open (some bs) = (r, true))
variable (hevents : events bs = (generatedEvents baseNs count.toNat).map stored)

include hopen hevents

/-- Which event is delivered. -/
theorem generated_delivered (hp : (r.timedReplay host (scaleAt d rate)).1[n]? = some p) :
    n < count.toNat ∧ p.1.event = stored (generatedEvent baseNs (UInt64.ofNat n)) := by
  have hget : (events bs)[n]? = some p.1.event := by
    rw [← timedReplay_events host (scaleAt d rate) hopen, List.getElem?_map, hp]
    rfl
  rw [hevents, generatedEvents, List.map_map, List.getElem?_map, Option.map_eq_some_iff] at hget
  obtain ⟨j, hj, hevent⟩ := hget
  obtain ⟨hlt, hj⟩ := List.getElem?_eq_some_iff.mp hj
  rw [List.length_range] at hlt
  rw [List.getElem_range] at hj
  subst hj
  exact ⟨hlt, hevent.symm⟩

variable (hspan : count.toNat * 500000 ≤ 2 ^ 53)
variable (hfit : ∀ i < count.toNat, host.start + offsetNs d rate i < 2 ^ 64)

include hspan hfit

/-- When it is due. -/
theorem generated_scheduled (hp : (r.timedReplay host (scaleAt d rate)).1[n]? = some p) :
    p.1.scheduledNs.toNat = host.start + offsetNs d rate n := by
  obtain ⟨hn, hevent⟩ := generated_delivered hopen hevents hp
  -- the target is counted from the first delivery
  obtain ⟨q, hq⟩ : ∃ q, (r.timedReplay host (scaleAt d rate)).1[0]? = some q := by
    have hlen := (List.getElem?_eq_some_iff.mp hp).1
    exact ⟨_, List.getElem?_eq_getElem (by omega)⟩
  obtain ⟨-, hfirstEvent⟩ := generated_delivered hopen hevents hq
  have hrefines := congrArg Prod.fst (timedReplay_refines host (scaleAt d rate) r)
  have hfirst : (r.replayAtRate
      ⟨scaleAt d rate, host.clock (r.timedReplay host (scaleAt d rate)).1⟩).1.head? = some q.1 := by
    rw [← hrefines, List.head?_map, List.head?_eq_getElem?, hq]
    rfl
  have hmem : p.1 ∈ (r.replayAtRate
      ⟨scaleAt d rate, host.clock (r.timedReplay host (scaleAt d rate)).1⟩).1 := by
    rw [← hrefines]
    exact List.mem_map_of_mem (List.mem_of_getElem? hp)
  have hsched := replay_scheduled scaleAt_zero hfirst p.1 hmem
  have hspacing : p.1.event.injectNs - q.1.event.injectNs = UInt64.ofNat (n * 500000) := by
    rw [hevent, hfirstEvent]
    exact inject_spacing baseNs n
  have hsum := hfit n hn
  rw [hsched, hspacing]
  dsimp only
  rw [scaleAt_spacing ((Nat.mul_le_mul_right 500000 hn.le).trans hspan), Host.clock_zero,
    UInt64.toNat_add, clockNs_toNat (by omega), UInt64.toNat_ofNat', Nat.add_mod_mod,
    Nat.mod_eq_of_lt hsum]

/-- All of them, in order. -/
theorem generated_deliveries :
    (r.timedReplay host (scaleAt d rate)).1.map (fun p => (p.1.event, p.1.scheduledNs.toNat))
      = (List.range count.toNat).map fun i =>
        (stored (generatedEvent baseNs (UInt64.ofNat i)), host.start + offsetNs d rate i) := by
  have hlength := timedReplay_length host (scaleAt d rate) hopen
  rw [← events_length, hevents, List.length_map, generatedEvents_length] at hlength
  apply List.ext_getElem?
  intro n
  rw [List.getElem?_map, List.getElem?_map]
  by_cases hn : n < count.toNat
  · have hget := List.getElem?_eq_getElem (hlength ▸ hn)
    rw [hget, List.getElem?_range hn, Option.map_some, Option.map_some,
      (generated_delivered hopen hevents hget).2,
      generated_scheduled hopen hevents hspan hfit hget]
  · rw [List.getElem?_eq_none (by omega),
      List.getElem?_eq_none (by rw [List.length_range]; omega)]
    rfl

end Delivered

end Generated

end UltrafastFeed.ReplayFeed
