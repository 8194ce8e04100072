import UltrafastFeed.Pcap.Copy

/-!
# Pcap — Replay

`PcapReader::replay_at_rate`. What the machine decides is a parameter:
`Pace.scale` is the division of an offset by the rate in `double`, with
its conversions, and `Pace.clock` gives the successive results of
`clock_ns()`, however long the sleeps and the callbacks between them
take. The callback does not use the reader, so a replay is the list of
its calls.

The loop runs while `events_read_ < total_events_`; every turn that does
not leave it reads one event, so the number left is fuel enough
(`replayLoop_runs`): the function computes an execution of the loop as
the source has it, `LoopRuns`.
-/

namespace UltrafastFeed.Pcap

open Lib.Machine

/-! ## The model -/

structure Pace where
  /-- `static_cast<uint64_t>(static_cast<double>(offset) / rate_multiplier)`. -/
  scale : UInt64 → UInt64
  /-- The results of `clock_ns()`, in order. -/
  clock : Nat → UInt64

/-- One call of the callback, with the `nanosleep` before it if there is
one. -/
structure Delivery where
  event : FeedEvent
  scheduledNs : UInt64
  sleepNs : Option UInt64
  deriving DecidableEq, Repr

/-- The events that `next` may still return. -/
def PcapReader.left (r : PcapReader) : Nat := r.totalEvents.toNat - r.eventsRead.toNat

/-- The `while` loop, with the number of clock readings so far. -/
def replayLoop (pace : Pace) (originInjectNs replayStartNs : UInt64) :
    Nat → Nat → PcapReader → List Delivery × PcapReader
  | 0, _, r => ([], r)
  | fuel + 1, ticks, r =>
      if r.eventsRead < r.totalEvents then
        match r.next with
        | (none, r') => ([], r')
        | (some ev, r') =>
            let offsetNs := pace.scale (ev.injectNs - originInjectNs)
            let targetNs := replayStartNs + offsetNs
            let nowNs := pace.clock ticks
            let sleepNs := if nowNs < targetNs then some (targetNs - nowNs) else none
            let rest := replayLoop pace originInjectNs replayStartNs fuel (ticks + 1) r'
            (⟨ev, targetNs, sleepNs⟩ :: rest.1, rest.2)
      else ([], r)

/-- `replay_at_rate`: the calls of the callback, and the reader left. -/
def PcapReader.replayAtRate (pace : Pace) (r : PcapReader) : List Delivery × PcapReader :=
  if r.file.isNone ∨ r.totalEvents = 0 then ([], r)
  else
    match r.rewind.2.next with
    | (none, r') => ([], r')
    | (some first, r') =>
        let replayStartNs := pace.clock 0
        let rest := replayLoop pace first.injectNs replayStartNs r'.left 1 r'
        (⟨first, replayStartNs, none⟩ :: rest.1, rest.2)

/-- The call of the callback that a turn of the loop makes. -/
def deliver (pace : Pace) (originInjectNs replayStartNs : UInt64) (ticks : Nat)
    (ev : FeedEvent) : Delivery :=
  let targetNs := replayStartNs + pace.scale (ev.injectNs - originInjectNs)
  let nowNs := pace.clock ticks
  ⟨ev, targetNs, if nowNs < targetNs then some (targetNs - nowNs) else none⟩

/-- The executions of the `while` loop that end, with the calls they make
and the reader they leave. -/
inductive LoopRuns (pace : Pace) (originInjectNs replayStartNs : UInt64) :
    Nat → PcapReader → List Delivery → PcapReader → Prop where
  | exit {ticks : Nat} {r : PcapReader} (hguard : ¬ r.eventsRead < r.totalEvents) :
      LoopRuns pace originInjectNs replayStartNs ticks r [] r
  | shortRead {ticks : Nat} {r r' : PcapReader} (hguard : r.eventsRead < r.totalEvents)
      (hnext : r.next = (none, r')) :
      LoopRuns pace originInjectNs replayStartNs ticks r [] r'
  | turn {ticks : Nat} {r r' r'' : PcapReader} {ev : FeedEvent} {ds : List Delivery}
      (hguard : r.eventsRead < r.totalEvents) (hnext : r.next = (some ev, r'))
      (hrest : LoopRuns pace originInjectNs replayStartNs (ticks + 1) r' ds r'') :
      LoopRuns pace originInjectNs replayStartNs ticks r
        (deliver pace originInjectNs replayStartNs ticks ev :: ds) r''

/-- The executions of `replay_at_rate` that end. -/
inductive Replays (pace : Pace) (r : PcapReader) : List Delivery → PcapReader → Prop where
  | nothing (hguard : r.file.isNone ∨ r.totalEvents = 0) : Replays pace r [] r
  | noFirst {r' : PcapReader} (hguard : ¬ (r.file.isNone ∨ r.totalEvents = 0))
      (hnext : r.rewind.2.next = (none, r')) : Replays pace r [] r'
  | first {r' r'' : PcapReader} {ev : FeedEvent} {ds : List Delivery}
      (hguard : ¬ (r.file.isNone ∨ r.totalEvents = 0))
      (hnext : r.rewind.2.next = (some ev, r'))
      (hrest : LoopRuns pace ev.injectNs (pace.clock 0) 1 r' ds r'') :
      Replays pace r (⟨ev, pace.clock 0, none⟩ :: ds) r''

/-! ## The loop ends by itself -/

theorem next_left {r r' : PcapReader} {ev : FeedEvent} (h : r.next = (some ev, r')) :
    r'.left + 1 = r.left := by
  rw [PcapReader.next] at h
  split at h
  · cases h
  · split at h
    · cases h
    · rename_i hlt
      split at h
      · cases h
      · cases h
        have hlt : r.eventsRead < r.totalEvents := UInt64.not_le.mp hlt
        have hnat := UInt64.lt_iff_toNat_lt.mp hlt
        simp only [PcapReader.left, uint64_succ_toNat hlt]
        omega

/-- **The loop ends**, within the events left, and by its own exits. -/
theorem replayLoop_runs (pace : Pace) (origin start : UInt64) {fuel ticks : Nat}
    {r : PcapReader} (h : r.left ≤ fuel) :
    LoopRuns pace origin start ticks r (replayLoop pace origin start fuel ticks r).1
      (replayLoop pace origin start fuel ticks r).2 := by
  induction fuel generalizing ticks r with
  | zero =>
      apply LoopRuns.exit
      rw [UInt64.lt_iff_toNat_lt]
      rw [PcapReader.left] at h
      omega
  | succ fuel ih =>
      rw [replayLoop]
      by_cases hguard : r.eventsRead < r.totalEvents
      · rw [if_pos hguard]
        cases hn : r.next with
        | mk e r' =>
            cases e with
            | none => exact .shortRead hguard hn
            | some ev =>
                have hleft := next_left hn
                exact .turn hguard hn (@ih (ticks + 1) r' (by omega))
      · rw [if_neg hguard]
        exact .exit hguard

/-- **A replay ends**, whatever the reader and the clock. -/
theorem replayAtRate_replays (pace : Pace) (r : PcapReader) :
    Replays pace r (r.replayAtRate pace).1 (r.replayAtRate pace).2 := by
  rw [PcapReader.replayAtRate]
  by_cases hguard : r.file.isNone ∨ r.totalEvents = 0
  · rw [if_pos hguard]
    exact .nothing hguard
  · rw [if_neg hguard]
    cases hn : r.rewind.2.next with
    | mk e r' =>
        cases e with
        | none => exact .noFirst hguard hn
        | some ev => exact .first hguard hn (replayLoop_runs _ _ _ (Nat.le_refl _))

/-! ## What is delivered -/

variable {bs : List UInt8} {r : PcapReader} {k : Nat}

theorem events_length (bs : List UInt8) : (events bs).length = recordCount bs := by
  simp [events]

theorem events_drop (hk : k < recordCount bs) :
    (events bs).drop k = decode (recordBytes bs k) :: (events bs).drop (k + 1) := by
  have hlen : k < (events bs).length := by rw [events_length]; exact hk
  rw [List.drop_eq_getElem_cons hlen]
  congr 1
  simp [events]

/-- A record left is an event left. -/
theorem AtRecord.declares (h : AtRecord bs r k) (hk : k < recordCount bs) :
    r.eventsRead < r.totalEvents := by
  rw [UInt64.lt_iff_toNat_lt, h.total, h.read]
  exact Nat.lt_of_lt_of_le hk (Nat.min_le_left _ _)

theorem AtRecord.next_left_eq (h : AtRecord bs r k) (hk : k < recordCount bs) :
    r.next = (some (decode (recordBytes bs k)), r.next.2) :=
  Prod.ext (h.next_left hk).1 rfl

theorem AtRecord.next_none_eq (h : AtRecord bs r k) (hk : recordCount bs ≤ k) :
    r.next = (none, r.next.2) :=
  Prod.ext (h.next_none hk).1 rfl

/-- No record left: everything has been read. -/
theorem AtRecord.all_read (h : AtRecord bs r k) (hk : recordCount bs ≤ k) :
    (events bs).drop k = [] ∧ AtRecord bs r (recordCount bs) := by
  obtain rfl : k = recordCount bs := Nat.le_antisymm h.le hk
  exact ⟨List.drop_eq_nil_of_le (Nat.le_of_eq (events_length bs)), h⟩

/-- The loop delivers the records from the reader's on, by induction on
the fuel: a turn moves the reader by one record. -/
theorem AtRecord.replayLoop_events (pace : Pace) (origin start : UInt64) {fuel ticks : Nat}
    (h : AtRecord bs r k) (hfuel : recordCount bs - k ≤ fuel) :
    (replayLoop pace origin start fuel ticks r).1.map Delivery.event = (events bs).drop k ∧
      AtRecord bs (replayLoop pace origin start fuel ticks r).2 (recordCount bs) := by
  induction fuel generalizing k ticks r with
  | zero =>
      obtain ⟨hnil, hat⟩ := h.all_read (by omega)
      rw [hnil]
      exact ⟨rfl, hat⟩
  | succ fuel ih =>
      rw [replayLoop]
      by_cases hk : k < recordCount bs
      · have hrest := @ih r.next.2 (k + 1) (ticks + 1) (h.next_left hk).2 (by omega)
        rw [if_pos (h.declares hk), h.next_left_eq hk, events_drop hk]
        exact ⟨congrArg (List.cons _) hrest.1, hrest.2⟩
      · have hk : recordCount bs ≤ k := Nat.not_lt.mp hk
        rw [(h.all_read hk).1]
        by_cases hguard : r.eventsRead < r.totalEvents
        · rw [if_pos hguard, h.next_none_eq hk]
          exact ⟨rfl, ((h.next_none hk).2.all_read hk).2⟩
        · rw [if_neg hguard]
          exact ⟨rfl, (h.all_read hk).2⟩

/-- **A replay delivers the file's events**, wherever the reader was, and
leaves the reader behind the last one. -/
theorem AtRecord.replay_events (pace : Pace) (h : AtRecord bs r k) :
    (r.replayAtRate pace).1.map Delivery.event = events bs ∧
      AtRecord bs (r.replayAtRate pace).2 (recordCount bs) := by
  obtain ⟨p, hfile, -⟩ := h.file
  have hrewound : AtRecord bs r.rewind.2 0 := h.rewind.2
  rw [PcapReader.replayAtRate]
  by_cases hzero : r.totalEvents = 0
  · -- nothing declared, so nothing was ever read
    have hcount : recordCount bs = 0 := by
      have htotal := h.total
      rw [hzero] at htotal
      rw [recordCount, ← htotal]
      exact Nat.zero_min _
    rw [if_pos (Or.inr hzero)]
    obtain ⟨hnil, hat⟩ := h.all_read (by rw [hcount]; exact Nat.zero_le k)
    exact ⟨(List.eq_nil_of_length_eq_zero ((events_length bs).trans hcount)).symm, hat⟩
  · rw [if_neg (by simp [hfile, hzero])]
    rw [← List.drop_zero (l := events bs)]
    by_cases hpos : 0 < recordCount bs
    · obtain ⟨hfirst, hat⟩ := hrewound.next_left hpos
      have hfuel : recordCount bs - 1 ≤ r.rewind.2.next.2.left := by
        rw [PcapReader.left, hat.total, hat.read]
        exact Nat.sub_le_sub_right (Nat.min_le_left _ _) 1
      rw [hrewound.next_left_eq hpos, events_drop hpos]
      obtain ⟨hmap, hend⟩ := hat.replayLoop_events pace
        (decode (recordBytes bs 0)).injectNs (pace.clock 0) hfuel
      exact ⟨congrArg (List.cons _) hmap, hend⟩
    · have hnone : recordCount bs ≤ 0 := Nat.not_lt.mp hpos
      obtain ⟨hnil, -⟩ := hrewound.all_read hnone
      rw [hrewound.next_none_eq hnone, hnil]
      exact ⟨rfl, ((hrewound.next_none hnone).2.all_read hnone).2⟩

/-! ## Every way to use an open reader -/

inductive ReaderCall where
  | next
  | rewind
  | replayAtRate (pace : Pace)

/-- The events a call hands to its caller or to the callback. -/
def PcapReader.call (r : PcapReader) : ReaderCall → List FeedEvent × PcapReader
  | .next => (r.next.1.toList, r.next.2)
  | .rewind => ([], r.rewind.2)
  | .replayAtRate pace => ((r.replayAtRate pace).1.map Delivery.event, (r.replayAtRate pace).2)

/-- Whatever the call, it hands out events of the file and leaves the
reader at one of its records. -/
theorem AtRecord.call (h : AtRecord bs r k) (c : ReaderCall) :
    (∀ ev ∈ (r.call c).1, ev ∈ events bs) ∧ ∃ k', AtRecord bs (r.call c).2 k' := by
  cases c with
  | next =>
      by_cases hk : k < recordCount bs
      · obtain ⟨hnext, hat⟩ := h.next_left hk
        refine ⟨fun ev hev => ?_, _, hat⟩
        simp only [PcapReader.call, hnext, Option.mem_toList] at hev
        cases hev
        exact List.mem_map.mpr ⟨k, List.mem_range.mpr hk, rfl⟩
      · obtain ⟨hnext, hat⟩ := h.next_none (Nat.not_lt.mp hk)
        refine ⟨fun ev hev => ?_, _, hat⟩
        simp [PcapReader.call, hnext] at hev
  | rewind => exact ⟨fun ev hev => absurd hev List.not_mem_nil, _, h.rewind.2⟩
  | replayAtRate pace =>
      obtain ⟨hevents, hat⟩ := h.replay_events pace
      refine ⟨fun ev hev => ?_, _, hat⟩
      rw [PcapReader.call, hevents] at hev
      exact hev

theorem AtRecord.after_calls (h : AtRecord bs r k) (cs : List ReaderCall) :
    ∃ k', AtRecord bs (after PcapReader.call r cs) k' := by
  induction cs generalizing r k with
  | nil => exact ⟨k, h⟩
  | cons c cs ih =>
      obtain ⟨-, k', hat⟩ := h.call c
      exact ih hat

theorem AtRecord.answers (h : AtRecord bs r k) (cs : List ReaderCall) :
    ∀ ev ∈ (answers PcapReader.call r cs).flatten, ev ∈ events bs := by
  induction cs generalizing r k with
  | nil => exact fun ev hev => absurd hev List.not_mem_nil
  | cons c cs ih =>
      obtain ⟨hhere, k', hat⟩ := h.call c
      intro ev hev
      rw [Lib.Machine.answers, List.flatten_cons] at hev
      rcases List.mem_append.mp hev with hev | hev
      · exact hhere ev hev
      · exact ih hat ev hev

/-- **A replay delivers exactly the file.** For every file that `open`
accepts, every sequence of `next`, `rewind` and `replay_at_rate` calls on
the reader, and every rate and clock: the replay ends, the callback was
called once for each event that a freshly opened reader yields by `next`,
in order, and `events_read()` is their number. -/
theorem replay_delivers_file (r₀ r₁ r fresh : PcapReader) (bs : List UInt8)
    (hopen : r₀.open (some bs) = (r, true)) (hfresh : r₁.open (some bs) = (fresh, true))
    (cs : List ReaderCall) (pace : Pace) :
    ∃ es, Drains fresh es ∧
      let out := (after PcapReader.call r cs).replayAtRate pace
      Replays pace (after PcapReader.call r cs) out.1 out.2 ∧
        out.1.map Delivery.event = es ∧ out.2.eventsRead.toNat = es.length := by
  obtain ⟨k, hat⟩ := (atRecord_open hopen).after_calls cs
  obtain ⟨hevents, hend⟩ := hat.replay_events pace
  refine ⟨events bs, drains_events hfresh, replayAtRate_replays pace _, hevents, ?_⟩
  rw [hend.read, events_length]

/-- A file cut off in its second record, replayed after two reads. -/
theorem replay_delivers_file_cutOff :
    ∃ r, PcapReader.fresh.open (some cutOff) = (r, true) ∧
      (((after PcapReader.call r [.next, .next]).replayAtRate ⟨id, fun _ => 7⟩).1.map
        Delivery.event) = [{ injectNs := 5 }] := by
  have hopen := open_header PcapReader.fresh 2 (record { injectNs := 5 } ++ List.replicate 10 7)
  obtain ⟨es, hes, -, hevents, -⟩ := replay_delivers_file _ _ _ _ _ hopen hopen
    [.next, .next] ⟨id, fun _ => 7⟩
  refine ⟨_, hopen, hevents.trans ?_⟩
  rw [hes.unique (drains_events hopen)]
  decide +kernel

end UltrafastFeed.Pcap
