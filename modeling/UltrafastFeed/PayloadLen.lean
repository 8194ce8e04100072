import UltrafastFeed.Handler.Accounting
import UltrafastFeed.Pcap.Replay

/-!
# PayloadLen — the events of both sources

A consumer takes `payload_len` for the number of valid bytes of a 64-byte
array. Events reach it from two sides. `rx_loop` clamps the number it
stores, so everything that comes out of `FeedHandler::pop` is in range,
whatever the frames held. `PcapReader::next` stores the 16-bit field it
finds in the record: what comes out of a file is in range exactly when
the fields of the file are.
-/

namespace UltrafastFeed

open Lib Lib.Endian Lib.Run Lib.Machine

/-- `payload_len` counts bytes of the array. -/
def FeedEvent.InRange (ev : FeedEvent) : Prop := ev.payloadLen.toNat ≤ kMaxPayload

instance (ev : FeedEvent) : Decidable ev.InRange :=
  inferInstanceAs (Decidable (_ ≤ _))

/-! ## The live feed -/

section Live

open Handler

theorem Handler.Parse.event_inRange {p : Parse} {ev : FeedEvent} (h : p.event = some ev) :
    ev.InRange := by
  have hret := (buildEvent_payloadLen p.ts p.packet).feed p.seen
  rw [Parse.event] at h
  split at h
  · rename_i r hr
    rw [show (buildEvent p.ts p.packet).feed p.seen = .done r from hr] at hret
    exact hret ev h
  · cases h

variable {ι α : Type} [Fintype ι] [DecidableEq ι]

/-- Everything `FeedHandler::pop` has returned. -/
theorem popped_inRange {x : Umem.Libxdp} {L : Spsc.TriviallyCopyable FeedEvent ι α}
    {b : Nat → ι → α} {mem : Nat → UInt8} {s : Handler.State ι α}
    (h : Reachable (Handler.step x L) (Handler.init b mem) s) :
    ∀ ev ∈ s.ring.popped, ev.InRange := by
  intro ev hev
  have hB := accounted_reachable h
  have hpushed : ev ∈ s.ring.pushed := hB.ringInv.fifo.subset hev
  rw [hB.pushedLog] at hpushed
  obtain ⟨e, -, he⟩ := List.mem_filterMap.mp hpushed
  rw [Handled.pushed] at he
  split at he
  · cases he
  · exact Parse.event_inRange he

end Live

/-! ## The capture file -/

open Pcap

/-- The length field of record `k`. -/
def recordLen (bs : List UInt8) (k : Nat) : UInt16 := toU16 ((bs.drop (24 + 88 * k + 16)).take 2)

theorem decode_payloadLen (bs : List UInt8) (k : Nat) :
    (decode (recordBytes bs k)).payloadLen = recordLen bs k := by
  rw [recordBytes, decode_take]
  show toU16 ((((bs.drop (24 + 88 * k)).drop 8).drop 8).take 2) = _
  rw [List.drop_drop, List.drop_drop, recordLen]

theorem events_inRange_iff (bs : List UInt8) :
    (∀ ev ∈ events bs, ev.InRange) ↔
      ∀ k, k < recordCount bs → (recordLen bs k).toNat ≤ kMaxPayload := by
  simp only [events, List.mem_map, List.mem_range, FeedEvent.InRange]
  constructor
  · intro h k hk
    rw [← decode_payloadLen]
    exact h _ ⟨k, hk, rfl⟩
  · rintro h _ ⟨k, hk, rfl⟩
    rw [decode_payloadLen]
    exact h k hk

variable {ι α : Type} [Fintype ι] [DecidableEq ι]

/-- **`payload_len` is in range for every source of events exactly when it
is in the file.** For every state of the handler that any interleaving
reaches, over any frame contents, and every file that `open` accepts: all
events that `pop()` has returned and all events that any sequence of
`next()`, `rewind()` and `replay_at_rate()` calls hands out have
`payload_len <= kMaxPayload`, if and only if the length field of every
record that the file both declares and holds is at most `kMaxPayload`. -/
theorem payload_len_inRange_iff (x : Umem.Libxdp) (L : Spsc.TriviallyCopyable FeedEvent ι α)
    (b : Nat → ι → α) (mem : Nat → UInt8) {s : Handler.State ι α}
    (hreach : Reachable (Handler.step x L) (Handler.init b mem) s)
    (r₀ r : PcapReader) (bs : List UInt8) (hopen : r₀.open (some bs) = (r, true)) :
    ((∀ ev ∈ s.ring.popped, ev.payloadLen.toNat ≤ kMaxPayload) ∧
        ∀ (cs : List ReaderCall), ∀ ev ∈ (answers PcapReader.call r cs).flatten,
          ev.payloadLen.toNat ≤ kMaxPayload)
      ↔ ∀ k, k < min (declared bs).toNat ((bs.length - 24) / 88) →
          (toU16 ((bs.drop (24 + 88 * k + 16)).take 2)).toNat ≤ kMaxPayload := by
  have hat : AtRecord bs r 0 := atRecord_open hopen
  refine Iff.trans ?_ (events_inRange_iff bs)
  constructor
  · rintro ⟨-, hall⟩ ev hev
    -- a replay hands out every event of the file
    let pace : Pace := ⟨id, fun _ => 0⟩
    apply hall [.replayAtRate pace]
    rw [answers, answers, PcapReader.call, (hat.replay_events pace).1]
    simpa using hev
  · intro hfile
    exact ⟨popped_inRange hreach, fun cs ev hev => hfile ev (hat.answers cs ev hev)⟩

/-- A capture of one event that claims 65535 payload bytes. -/
def overlong : List UInt8 := header 1 ++ record { payloadLen := 65535 }

/-- The reader accepts the file and hands out the event. -/
theorem overlong_payload_len :
    (PcapReader.fresh.open (some overlong)).2 = true ∧
      ((PcapReader.fresh.open (some overlong)).1.next.1.map FeedEvent.payloadLen) = some 65535 ∧
      ¬ (65535 : UInt16).toNat ≤ kMaxPayload := by
  refine ⟨?_, ?_, by decide⟩
  · decide +kernel
  · decide +kernel

/-- A popped event, and a capture of one event with a full payload. -/
theorem payload_len_inRange_iff_oneEach :
    ∃ s r, Reachable (Handler.step .byFree Handler.oneWord)
        (Handler.init (fun _ _ => {}) fun a => headerChain 8 1 (a - 256)) s ∧
      PcapReader.fresh.open (some (header 1 ++ record { payloadLen := 64 })) = (r, true) ∧
      s.ring.popped.length = 1 ∧ ∀ ev ∈ s.ring.popped, ev.payloadLen.toNat ≤ kMaxPayload := by
  have hreach : Reachable (Handler.step .byFree Handler.oneWord)
      (Handler.init (fun _ _ => {}) fun a => headerChain 8 1 (a - 256)) _ :=
    ⟨Handler.oneEvent, (Option.some_get Handler.oneEvent_enabled).symm⟩
  have hopen := open_header PcapReader.fresh 1 (record { payloadLen := 64 })
  have hfile : ∀ k, k < min (declared (header 1 ++ record { payloadLen := 64 })).toNat
      (((header 1 ++ record { payloadLen := 64 }).length - 24) / 88) →
      (toU16 (((header 1 ++ record { payloadLen := 64 }).drop (24 + 88 * k + 16)).take 2)).toNat
        ≤ kMaxPayload := by
    clear hreach
    decide +kernel
  refine ⟨_, _, hreach, hopen, ?_,
    ((payload_len_inRange_iff .byFree Handler.oneWord _ _ hreach _ _ _ hopen).mpr hfile).1⟩
  clear hreach
  decide +kernel

end UltrafastFeed
