import Mathlib.Data.Rat.Floor
import Mathlib.Tactic.Linarith
import UltrafastFeed.Pcap.Replay

/-!
# Pcap — Schedule

When `replay_at_rate` schedules the events of a file. Every target is
computed from the first event and the one clock reading taken there, so
no error adds up: two targets are off by the truncation of each and
nothing else. But the offset from the first event is an UNSIGNED
difference. An event that predates the first one is an offset of almost
`2 ^ 64` ahead of it, and is scheduled centuries late.

The division is exact here: `exactPace` divides rationals and truncates.
-/

namespace UltrafastFeed.Pcap

open Lib.Machine

/-- `offset / rate_multiplier` without rounding, truncated to an integer. -/
def exactPace (rate : ℚ) (clock : Nat → UInt64) : Pace where
  scale offset := UInt64.ofNat ⌊(offset.toNat : ℚ) / rate⌋₊
  clock := clock

/-- `replay_start_ns` plus the scaled time span of the events fits 64
bits. -/
def SpanFits (rate : ℚ) (replayStartNs : UInt64) (es : List FeedEvent) : Prop :=
  ∀ a ∈ es, ∀ b ∈ es,
    (replayStartNs.toNat : ℚ) + ((a.injectNs.toNat : ℚ) - b.injectNs.toNat) / rate < 2 ^ 64

/-- The targets, counted from the first event, fit 64 bits. -/
def TargetsFit (rate : ℚ) (replayStartNs : UInt64) (es : List FeedEvent) : Prop :=
  ∀ first ∈ es.head?, ∀ ev ∈ es,
    (replayStartNs.toNat : ℚ) + ((ev.injectNs.toNat : ℚ) - first.injectNs.toNat) / rate < 2 ^ 64

/-- No event is older than the first one. -/
def FirstIsOldest (es : List FeedEvent) : Prop :=
  ∀ first ∈ es.head?, ∀ ev ∈ es, first.injectNs ≤ ev.injectNs

section Decidable

variable (rate : ℚ) (replayStartNs : UInt64) (es : List FeedEvent)

instance : Decidable (SpanFits rate replayStartNs es) :=
  inferInstanceAs (Decidable (∀ a ∈ es, ∀ b ∈ es, _))

instance : Decidable (TargetsFit rate replayStartNs es) :=
  inferInstanceAs (Decidable (∀ first ∈ es.head?, ∀ ev ∈ es, _))

instance : Decidable (FirstIsOldest es) :=
  inferInstanceAs (Decidable (∀ first ∈ es.head?, ∀ ev ∈ es, first.injectNs ≤ ev.injectNs))

end Decidable

/-! ## Every target is computed from the first event -/

/-- The loop, by induction on its turns. -/
theorem replayLoop_scheduled (pace : Pace) (origin start : UInt64) {fuel ticks : Nat}
    {r : PcapReader} :
    ∀ d ∈ (replayLoop pace origin start fuel ticks r).1,
      d.scheduledNs = start + pace.scale (d.event.injectNs - origin) := by
  induction fuel generalizing ticks r with
  | zero =>
      intro d hd
      cases hd
  | succ fuel ih =>
      intro d hd
      rw [replayLoop] at hd
      split at hd
      · split at hd
        · cases hd
        · rcases List.mem_cons.mp hd with rfl | hd
          · rfl
          · exact ih d hd
      · cases hd

/-- The whole replay, the first event included when an offset of zero is
scaled to zero. -/
theorem replay_scheduled {pace : Pace} (hzero : pace.scale 0 = 0) {r : PcapReader}
    {first : Delivery} (hfirst : (r.replayAtRate pace).1.head? = some first) :
    ∀ d ∈ (r.replayAtRate pace).1,
      d.scheduledNs = pace.clock 0 + pace.scale (d.event.injectNs - first.event.injectNs) := by
  intro d hd
  rw [PcapReader.replayAtRate] at hfirst hd
  split at hfirst
  · cases hfirst
  · rename_i hguard
    rw [if_neg hguard] at hd
    split at hfirst
    · cases hfirst
    · rename_i ev r' hnext
      rw [hnext] at hd
      cases hfirst
      rcases List.mem_cons.mp hd with rfl | hd
      · rw [UInt64.sub_self, hzero, UInt64.add_zero]
      · exact replayLoop_scheduled _ _ _ d hd

theorem exactPace_zero (rate : ℚ) (clock : Nat → UInt64) : (exactPace rate clock).scale 0 = 0 := by
  simp [exactPace]

/-- The targets of a file's replay, from any state of its reader. -/
theorem AtRecord.scheduled {bs : List UInt8} {r : PcapReader} {k : Nat} (h : AtRecord bs r k)
    (rate : ℚ) (clock : Nat → UInt64) {first : FeedEvent}
    (hfirst : (events bs).head? = some first) :
    ∀ d ∈ (r.replayAtRate (exactPace rate clock)).1, d.event ∈ events bs ∧
      d.scheduledNs = clock 0
        + UInt64.ofNat ⌊((d.event.injectNs - first.injectNs).toNat : ℚ) / rate⌋₊ := by
  intro d hd
  have hevents := (h.replay_events (exactPace rate clock)).1
  rw [← hevents, List.head?_map] at hfirst
  obtain ⟨d₀, hd₀, rfl⟩ := Option.map_eq_some_iff.mp hfirst
  refine ⟨?_, replay_scheduled (exactPace_zero rate clock) hd₀ d hd⟩
  rw [← hevents]
  exact List.mem_map_of_mem hd

/-! ## Without an older event nothing wraps -/

section Exact

variable {rate : ℚ} {start origin inject : UInt64}

/-- The target as a number: the start and the truncated offset. -/
theorem scheduled_toNat (hrate : 0 < rate) (hle : origin ≤ inject)
    (hfit : (start.toNat : ℚ) + ((inject.toNat : ℚ) - origin.toNat) / rate < 2 ^ 64) :
    (start + UInt64.ofNat ⌊((inject - origin).toNat : ℚ) / rate⌋₊).toNat
      = start.toNat + ⌊((inject.toNat : ℚ) - origin.toNat) / rate⌋₊ := by
  have hnat : origin.toNat ≤ inject.toNat := UInt64.le_iff_toNat_le.mp hle
  have hoffset : ((inject - origin).toNat : ℚ) = (inject.toNat : ℚ) - origin.toNat := by
    rw [UInt64.toNat_sub_of_le _ _ hle, Nat.cast_sub hnat]
  have hnonneg : 0 ≤ ((inject.toNat : ℚ) - origin.toNat) / rate := by
    apply div_nonneg _ hrate.le
    rw [sub_nonneg]
    exact_mod_cast hnat
  have hfloor := Nat.floor_le hnonneg
  have hsum : start.toNat + ⌊((inject.toNat : ℚ) - origin.toNat) / rate⌋₊ < 2 ^ 64 := by
    have hlt : ((start.toNat + ⌊((inject.toNat : ℚ) - origin.toNat) / rate⌋₊ : ℕ) : ℚ)
        < (2 ^ 64 : ℕ) := by
      push_cast
      linarith
    exact_mod_cast hlt
  rw [UInt64.toNat_add, hoffset, UInt64.toNat_ofNat', Nat.add_mod_mod, Nat.mod_eq_of_lt hsum]

/-- Truncated differences are off by less than one. -/
theorem floor_sub_floor {x y : ℚ} (hx : 0 ≤ x) (hy : 0 ≤ y) :
    |((⌊y⌋₊ : ℚ) - ⌊x⌋₊) - (y - x)| < 1 := by
  have hx₁ := Nat.floor_le hx
  have hx₂ := Nat.lt_floor_add_one x
  have hy₁ := Nat.floor_le hy
  have hy₂ := Nat.lt_floor_add_one y
  rw [abs_lt]
  constructor
  · linarith
  · linarith

end Exact

variable {bs : List UInt8} {r r₀ : PcapReader} {k : Nat} {rate : ℚ} {clock : Nat → UInt64}

/-- What the two results below share: a delivered event's target, with
the first event the oldest. -/
theorem AtRecord.scheduled_exact (h : AtRecord bs r k) (hrate : 0 < rate)
    (hold : FirstIsOldest (events bs)) (hfit : TargetsFit rate (clock 0) (events bs))
    {first : FeedEvent} (hfirst : (events bs).head? = some first) :
    ∀ d ∈ (r.replayAtRate (exactPace rate clock)).1,
      0 ≤ ((d.event.injectNs.toNat : ℚ) - first.injectNs.toNat) / rate ∧
      d.scheduledNs.toNat = (clock 0).toNat
        + ⌊((d.event.injectNs.toNat : ℚ) - first.injectNs.toNat) / rate⌋₊ := by
  intro d hd
  obtain ⟨hmem, hsched⟩ := h.scheduled rate clock hfirst d hd
  have hle : first.injectNs ≤ d.event.injectNs := hold first hfirst _ hmem
  refine ⟨?_, ?_⟩
  · apply div_nonneg _ hrate.le
    rw [sub_nonneg]
    exact_mod_cast UInt64.le_iff_toNat_le.mp hle
  · rw [hsched, scheduled_toNat hrate hle (hfit first hfirst _ hmem)]

/-- A file that delivers anything has a first event. -/
theorem AtRecord.exists_first (h : AtRecord bs r k) (pace : Pace) {d : Delivery}
    (hd : d ∈ (r.replayAtRate pace).1) : ∃ first, (events bs).head? = some first := by
  have hmem : d.event ∈ events bs := by
    rw [← (h.replay_events pace).1]
    exact List.mem_map_of_mem hd
  exact ⟨_, List.head?_eq_some_head (List.ne_nil_of_mem hmem)⟩

/-- **Pacing has no cumulative drift.** For every file whose first event
is its oldest, every positive rate, every state of the reader and every
sequence of clock readings: the gap between the targets of any two
delivered events is the scaled gap of their `inject_ns`, up to less than
a nanosecond. -/
theorem replay_no_drift (r₀ r : PcapReader) (bs : List UInt8)
    (hopen : r₀.open (some bs) = (r, true)) (cs : List ReaderCall) (rate : ℚ) (hrate : 0 < rate)
    (clock : Nat → UInt64) (hold : FirstIsOldest (events bs))
    (hfit : TargetsFit rate (clock 0) (events bs)) :
    let ds := ((after PcapReader.call r cs).replayAtRate (exactPace rate clock)).1
    ∀ d ∈ ds, ∀ e ∈ ds,
      |((e.scheduledNs.toNat : ℚ) - d.scheduledNs.toNat)
        - ((e.event.injectNs.toNat : ℚ) - d.event.injectNs.toNat) / rate| < 1 := by
  obtain ⟨k, hat⟩ := (atRecord_open hopen).after_calls cs
  intro ds d hd e he
  obtain ⟨first, hfirst⟩ := hat.exists_first _ hd
  obtain ⟨hd₀, hdn⟩ := hat.scheduled_exact hrate hold hfit hfirst d hd
  obtain ⟨he₀, hen⟩ := hat.scheduled_exact hrate hold hfit hfirst e he
  have hgap := floor_sub_floor hd₀ he₀
  rw [hdn, hen]
  push_cast
  rw [← sub_div, sub_sub_sub_cancel_right] at hgap
  rwa [add_sub_add_left_eq_sub]

/-- Two events half a millisecond apart, as `do_generate` writes them. -/
def generated : List UInt8 :=
  header 2 ++ (record { injectNs := 1000000 } ++ record { injectNs := 1500000 })

/-- At three times the speed: the second target is a sixth of a
millisecond after the first, rounded down. -/
theorem replay_no_drift_generated :
    ∃ r, PcapReader.fresh.open (some generated) = (r, true) ∧
      let ds := (r.replayAtRate (exactPace 3 fun t => UInt64.ofNat (7 * t))).1
      ds.map (fun d => (d.event.injectNs, d.scheduledNs)) = [(1000000, 0), (1500000, 166666)] ∧
        ∀ d ∈ ds, ∀ e ∈ ds,
          |((e.scheduledNs.toNat : ℚ) - d.scheduledNs.toNat)
            - ((e.event.injectNs.toNat : ℚ) - d.event.injectNs.toNat) / 3| < 1 := by
  have hopen : PcapReader.fresh.open (some generated) = (⟨some ⟨generated, 24⟩, 2, 0⟩, true) :=
    open_header PcapReader.fresh 2 _
  refine ⟨_, hopen, ?_, replay_no_drift _ _ _ hopen [] 3 (by norm_num) _ ?_ ?_⟩
  · decide +kernel
  · show FirstIsOldest (events generated)
    decide +kernel
  · show TargetsFit 3 0 (events generated)
    decide +kernel

/-! ## The order of the targets -/

/-- A span that fits leaves room for every target. -/
theorem SpanFits.targetsFit {start : UInt64} {es : List FeedEvent} (h : SpanFits rate start es) :
    TargetsFit rate start es :=
  fun first hfirst ev hev => h ev hev first (List.mem_of_mem_head? hfirst)

/-- At rate one and from time zero every span fits. -/
theorem spanFits_one (es : List FeedEvent) : SpanFits 1 0 es := by
  intro a _ b _
  have ha : (a.injectNs.toNat : ℚ) < 2 ^ 64 := by exact_mod_cast a.injectNs.toNat_lt
  have hb : (0 : ℚ) ≤ b.injectNs.toNat := Nat.cast_nonneg _
  rw [div_one, UInt64.toNat_zero, Nat.cast_zero]
  linarith

/-- At rate one the offset is scheduled as it is, wrapped. -/
theorem scheduled_one (offset : UInt64) :
    (0 : UInt64) + UInt64.ofNat ⌊(offset.toNat : ℚ) / 1⌋₊ = offset := by
  rw [div_one, Nat.floor_natCast, UInt64.ofNat_toNat, UInt64.zero_add]

/-- **Replay keeps the order of `inject_ns` exactly on the files whose
first event is the oldest.** For every file that `open` accepts and every
state of its reader: all replays, at any positive rate and with any
clock, as long as the scaled time span fits, schedule any two events in
the order of their `inject_ns`, and none that predates the first event
after `replay_start_ns`, if and only if no event predates the first. -/
theorem replay_order_iff (r₀ r : PcapReader) (bs : List UInt8)
    (hopen : r₀.open (some bs) = (r, true)) (cs : List ReaderCall) :
    (∀ (rate : ℚ) (clock : Nat → UInt64), 0 < rate → SpanFits rate (clock 0) (events bs) →
        let ds := ((after PcapReader.call r cs).replayAtRate (exactPace rate clock)).1
        (∀ d ∈ ds, ∀ e ∈ ds, d.event.injectNs ≤ e.event.injectNs →
          d.scheduledNs ≤ e.scheduledNs) ∧
        ∀ first ∈ ds.head?, ∀ d ∈ ds,
          d.event.injectNs < first.event.injectNs → d.scheduledNs ≤ clock 0)
      ↔ FirstIsOldest (events bs) := by
  obtain ⟨k, hat⟩ := (atRecord_open hopen).after_calls cs
  constructor
  · intro hall first hfirst ev hev
    obtain ⟨-, hlate⟩ := hall 1 (fun _ => 0) one_pos (spanFits_one _)
    have hevents := (hat.replay_events (exactPace 1 fun _ => 0)).1
    have hsched := hat.scheduled 1 (fun _ => 0) hfirst
    rw [← hevents] at hfirst hev
    rw [List.head?_map] at hfirst
    obtain ⟨d₀, hd₀, rfl⟩ := Option.map_eq_some_iff.mp hfirst
    obtain ⟨d, hd, rfl⟩ := List.mem_map.mp hev
    by_contra hlt
    have hlt : d.event.injectNs < d₀.event.injectNs := UInt64.not_le.mp hlt
    -- scheduled at the wrapped difference, which is not zero
    have hle := hlate d₀ hd₀ d hd hlt
    rw [(hsched d hd).2, scheduled_one] at hle
    have hzero : d.event.injectNs - d₀.event.injectNs = 0 := UInt64.le_zero_iff.mp hle
    have heq := UInt64.sub_add_cancel d.event.injectNs d₀.event.injectNs
    rw [hzero, UInt64.zero_add] at heq
    rw [heq] at hlt
    exact UInt64.lt_irrefl _ hlt
  · intro hold rate clock hrate hfit
    refine ⟨fun d hd e he hle => ?_, fun first hfirst d hd hlt => ?_⟩
    · obtain ⟨first, hfirst⟩ := hat.exists_first _ hd
      obtain ⟨-, hdn⟩ := hat.scheduled_exact hrate hold hfit.targetsFit hfirst d hd
      obtain ⟨-, hen⟩ := hat.scheduled_exact hrate hold hfit.targetsFit hfirst e he
      have hcast : (d.event.injectNs.toNat : ℚ) ≤ e.event.injectNs.toNat := by
        exact_mod_cast UInt64.le_iff_toNat_le.mp hle
      rw [UInt64.le_iff_toNat_le, hdn, hen]
      apply Nat.add_le_add_left
      apply Nat.floor_mono
      exact div_le_div_of_nonneg_right (sub_le_sub_right hcast _) hrate.le
    · -- no event predates the first
      have hevents := (hat.replay_events (exactPace rate clock)).1
      have hold' := hold first.event (by rw [← hevents, List.head?_map, hfirst]; rfl) d.event
        (by rw [← hevents]; exact List.mem_map_of_mem hd)
      exact absurd hlt (UInt64.not_lt.mpr hold')

theorem replay_order_iff_generated :
    ∃ r, PcapReader.fresh.open (some generated) = (r, true) ∧
      ∀ d ∈ (r.replayAtRate (exactPace 3 fun _ => 5)).1,
      ∀ e ∈ (r.replayAtRate (exactPace 3 fun _ => 5)).1,
        d.event.injectNs ≤ e.event.injectNs → d.scheduledNs ≤ e.scheduledNs := by
  have hopen := open_header PcapReader.fresh 2
    (record { injectNs := 1000000 } ++ record { injectNs := 1500000 })
  have hold : FirstIsOldest (events generated) := by decide +kernel
  have hfit : SpanFits 3 5 (events generated) := by decide +kernel
  have horder := (replay_order_iff _ _ _ hopen []).mpr hold
  exact ⟨_, hopen, (horder 3 (fun _ => 5) (by norm_num) hfit).1⟩

/-- An event of a short payload, with `inject_ns` zero, after one that
carries a time. -/
def shortPayloadSecond : List UInt8 :=
  header 2 ++ (record { injectNs := 1000 } ++ record { payloadLen := 4 })

/-- Replayed at twice the speed from one second on, the event that
predates the first one by a microsecond is scheduled 292 years later. -/
theorem predating_event_late :
    ∃ r, PcapReader.fresh.open (some shortPayloadSecond) = (r, true) ∧
      SpanFits 2 1000000000 (events shortPayloadSecond) ∧
      ((r.replayAtRate (exactPace 2 fun _ => 1000000000)).1.map fun d =>
        (d.event.injectNs, d.scheduledNs)) = [(1000, 1000000000), (0, 9223372037854775308)] := by
  have hopen := open_header PcapReader.fresh 2
    (record { injectNs := 1000 } ++ record { payloadLen := 4 })
  refine ⟨_, hopen, ?_, ?_⟩
  · decide +kernel
  · decide +kernel

end UltrafastFeed.Pcap
