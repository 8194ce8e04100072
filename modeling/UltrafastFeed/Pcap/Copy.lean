import UltrafastFeed.Pcap.Cursor
import UltrafastFeed.Pcap.RoundTrip

/-!
# Pcap — Copy

Reading a file and writing what was read. The decoder skips the padding
and stops at the declared count or at a cut-off record; the encoder
writes zero padding and the count of what it wrote. So a copy keeps the
events and nothing else of the file, and a copy of a copy is the copy.
-/

namespace UltrafastFeed.Pcap

open Lib.Endian Lib.ByteFile

variable {bs : List UInt8} {r r₀ : PcapReader} {k : Nat}

/-- A reader at record `k` drains the records from there on. The
induction is on the records left. -/
theorem AtRecord.drains (h : AtRecord bs r k) {n : Nat} (hn : k + n = recordCount bs) :
    Drains r ((List.range' k n).map fun i => decode (recordBytes bs i)) := by
  induction n generalizing r k with
  | zero =>
      obtain ⟨hnone, -⟩ := h.next_none (Nat.le_of_eq hn.symm)
      exact .done (Prod.ext hnone rfl)
  | succ n ih =>
      obtain ⟨hsome, hat⟩ := h.next_left (by omega)
      rw [List.range'_succ, List.map_cons]
      exact .more (Prod.ext hsome rfl) (ih hat (by omega))

/-- **Draining any file** gives the records it declares and holds. -/
theorem drains_events (h : r₀.open (some bs) = (r, true)) : Drains r (events bs) := by
  have hdrain := (atRecord_open h).drains (Nat.zero_add _)
  rwa [← List.range_eq_range'] at hdrain

/-- A decoded event has no fields that a file does not keep. -/
theorem stored_decode (bs : List UInt8) : stored (decode bs) = decode bs := rfl

theorem stored_events (bs : List UInt8) : (events bs).map stored = events bs := by
  rw [events, List.map_map]
  exact List.map_congr_left fun k _ => stored_decode _

/-- **Copying a capture canonicalises it.** For every file `f` that `open`
accepts, the events read from it, written by a writer whose every call
succeeds: `open` accepts the file `g`, reading `g` yields the events of
`f`, the declared count of `g` is the number of its records, and every
such copy of `g` is `g`. -/
theorem copy_canonicalises (r₀ r : PcapReader) (f : List UInt8)
    (hopen : r₀.open (some f) = (r, true)) :
    ∃ es, Drains r es ∧
      ∀ (r₁ : PcapReader) (cs : List Call), cs.map Call.ev = es →
        (∀ ok ∈ (newWriter.writeAll cs).2, ok = true) →
        let g := (closedWriter cs).file.bytes
        ∃ r', r₁.open (some g) = (r', true) ∧ Drains r' es ∧
          r'.totalEvents.toNat = es.length ∧ g.length = 24 + 88 * es.length ∧
          ∀ es' cs', Drains r' es' → cs'.map Call.ev = es' →
            (∀ ok ∈ (newWriter.writeAll cs').2, ok = true) →
            (closedWriter cs').file.bytes = g := by
  refine ⟨events f, drains_events hopen, ?_⟩
  intro r₁ cs hcs hall
  obtain ⟨hsize, r', hopen', htotal, hdrain⟩ := reads_written hall r₁
  have hlen : cs.length = (events f).length := by rw [← hcs, List.length_map]
  have hstored : (cs.map fun c => stored c.ev) = events f := by
    rw [← stored_events f, ← hcs, List.map_map]
    rfl
  rw [hstored] at hdrain
  refine ⟨r', hopen', hdrain, htotal.trans hlen, hlen ▸ hsize, ?_⟩
  intro es' cs' hdrain' hcs' hall'
  have hes : cs'.map Call.ev = cs.map Call.ev := by rw [hcs', hcs, hdrain'.unique hdrain]
  have hlen' : cs'.length = cs.length := by simpa using congrArg List.length hes
  rw [(written_bytes hall').2, (written_bytes hall).2, hes, hlen']

/-- The copy of a file with a cut-off second record. -/
def copyOfCutOff : List Call := [⟨{ injectNs := 5 }, fun _ => .full⟩]

theorem copy_canonicalises_cutOff :
    ∃ r r', PcapReader.fresh.open (some cutOff) = (r, true) ∧
      PcapReader.fresh.open (some (closedWriter copyOfCutOff).file.bytes) = (r', true) ∧
      Drains r' [{ injectNs := 5 }] ∧ r'.totalEvents.toNat = 1 := by
  have hopen := open_header PcapReader.fresh 2 (record { injectNs := 5 } ++ List.replicate 10 7)
  obtain ⟨es, hes, hcopy⟩ := copy_canonicalises _ _ _ hopen
  have hevents : es = [{ injectNs := 5 }] := by
    rw [hes.unique (drains_events hopen)]
    decide +kernel
  subst hevents
  obtain ⟨r', hopen', hdrain, htotal, -⟩ := hcopy PcapReader.fresh copyOfCutOff rfl (by decide)
  exact ⟨_, r', hopen, hopen', hdrain, htotal⟩

end UltrafastFeed.Pcap
