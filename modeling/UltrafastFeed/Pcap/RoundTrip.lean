import UltrafastFeed.Pcap.Reader

/-!
# Pcap — RoundTrip

What a closed capture file holds, and that a reader gives back what was
written. The count is patched INSIDE the file: `close` seeks to offset
16 and overwrites the eight zero bytes that `write_header` put there, so
the records behind it do not move.
-/

namespace UltrafastFeed.Pcap

open Lib.Endian Lib.ByteFile

/-- The writer after the header, with every header `fwrite` succeeding. -/
def newWriter : PcapWriter := PcapWriter.create true fun _ => .full

/-- The writer after the calls and a `close` whose `fwrite` succeeds. -/
def closedWriter (cs : List Call) : PcapWriter :=
  (newWriter.writeAll cs).1.close .full

/-! ## The bytes of a closed capture -/

theorem newWriter_eq : newWriter = ⟨OutFile.empty.emit (header 0), true, 0⟩ :=
  create_file

theorem newWriter_pos : newWriter.file.pos = 24 := by
  rw [newWriter_eq]
  rfl

/-- The writer after the calls, before it is closed. -/
theorem newWriter_writeAll (cs : List Call) :
    newWriter.writeAll cs =
      (⟨OutFile.empty.emit (header 0 ++ body 24 cs), true,
          UInt64.ofNat (successes 24 cs).length⟩,
        results 24 cs) := by
  have hopen : newWriter.isOpen = true := by rw [newWriter_eq]
  rw [PcapWriter.writeAll_eq hopen, newWriter_pos, newWriter_eq]
  simp only [OutFile.emit_append, UInt64.zero_add]

/-- The bytes of a header before its count field. -/
def headerStart : List UInt8 := u64Bytes kMagic ++ u32Bytes kVersion ++ u32Bytes 0

theorem header_eq (n : UInt64) : header n = headerStart ++ u64Bytes n := rfl

theorem headerStart_length : headerStart.length = kCountOffset := by
  simp [headerStart, kCountOffset]

/-- The journal of a closed capture: header and body from offset `0` on,
then the count at its offset. -/
theorem closedWriter_journal (cs : List Call) :
    (closedWriter cs).file.journal =
      stores 0 (header 0 ++ body 24 cs)
        ++ stores kCountOffset (u64Bytes (UInt64.ofNat (successes 24 cs).length)) := by
  rw [closedWriter, newWriter_writeAll]
  simp only [PcapWriter.close, if_true]
  have hfit : kCountOffset + 8 ≤ maxOffset := by decide
  rw [OutFile.fwrite_full (by rw [u64Bytes_length]; exact hfit)]
  simp [OutFile.emit, OutFile.fseek, OutFile.empty]

/-- Replaying a count patch over a header. -/
theorem replay_count (n m : UInt64) (bs : List UInt8) :
    replay (header n ++ bs) (stores kCountOffset (u64Bytes m)) = header m ++ bs := by
  rw [header_eq, header_eq, ← headerStart_length]
  exact replay_stores_inside _ _ _ _ (by simp)

/-- **A closed capture** is the header with the number of successful
calls, followed by what the calls left behind. -/
theorem closedWriter_bytes (cs : List Call) :
    (closedWriter cs).file.bytes =
      header (UInt64.ofNat (successes 24 cs).length) ++ body 24 cs := by
  have hend := replay_stores_end [] (header 0 ++ body 24 cs)
  rw [List.length_nil, List.nil_append] at hend
  rw [OutFile.bytes, closedWriter_journal, replay_append, hend, replay_count]

theorem closedWriter_isOpen (cs : List Call) : (closedWriter cs).isOpen = false := by
  rw [closedWriter, newWriter_writeAll]
  rfl

/-- Closing again, and the destructor, do nothing. -/
theorem close_again {w : PcapWriter} (h : w.isOpen = false) (os : List Outcome) :
    os.foldl PcapWriter.close w = w := by
  induction os with
  | nil => rfl
  | cons o os ih =>
      have hc : w.close o = w := by simp [PcapWriter.close, h]
      rw [List.foldl_cons, hc, ih]

/-! ## When every call succeeds -/

theorem all_succeed {pos : Nat} {cs : List Call}
    (h : ∀ ok ∈ results pos cs, ok = true) :
    successes pos cs = cs.map Call.ev ∧
      body pos cs = ((cs.map Call.ev).map record).flatten := by
  induction cs generalizing pos with
  | nil => exact ⟨rfl, rfl⟩
  | cons c cs ih =>
      have hok : (callEffect pos c.o).2 = true := h _ (by simp [results])
      obtain ⟨hs, hb⟩ := @ih (pos + (callEffect pos c.o).1)
        (fun ok hmem => h ok (by simp [results, hmem]))
      obtain ⟨hk, -⟩ := callEffect_true hok
      have hfull : (record c.ev).take 88 = record c.ev :=
        List.take_of_length_le (by simp)
      refine ⟨by rw [successes, if_pos hok, hs, List.map_cons], ?_⟩
      rw [body, hb, hk, hfull, List.map_cons, List.map_cons, List.flatten_cons]

/-- The file of a writer whose every call succeeded. -/
theorem written_bytes {cs : List Call} (hall : ∀ ok ∈ (newWriter.writeAll cs).2, ok = true) :
    (UInt64.ofNat cs.length).toNat = cs.length ∧
      (closedWriter cs).file.bytes
        = header (UInt64.ofNat cs.length) ++ ((cs.map Call.ev).map record).flatten := by
  rw [newWriter_writeAll] at hall
  obtain ⟨hs, hb⟩ := all_succeed hall
  have hlt := successes_lt 24 cs
  rw [hs, List.length_map] at hlt
  constructor
  · rw [UInt64.toNat_ofNat', Nat.mod_eq_of_lt hlt]
  · rw [closedWriter_bytes, hs, hb, List.length_map]

/-- Its size, and what a reader gets from it. -/
theorem reads_written {cs : List Call} (hall : ∀ ok ∈ (newWriter.writeAll cs).2, ok = true)
    (r₀ : PcapReader) :
    (closedWriter cs).file.bytes.length = 24 + 88 * cs.length ∧
      ∃ r, r₀.open (some (closedWriter cs).file.bytes) = (r, true) ∧
        r.totalEvents.toNat = cs.length ∧ Drains r (cs.map fun c => stored c.ev) := by
  obtain ⟨hn, hfile⟩ := written_bytes hall
  rw [hfile]
  constructor
  · simp [Function.comp_def, Nat.mul_comm]
  · obtain ⟨r, hopen, htotal, hdrain⟩ :=
      @reads_back r₀ (cs.map Call.ev) [] (UInt64.ofNat cs.length)
        (by rw [hn, List.length_map])
    rw [List.append_nil] at hopen
    refine ⟨r, hopen, by rw [htotal, hn], ?_⟩
    have htake : (cs.map Call.ev).take (UInt64.ofNat cs.length).toNat = cs.map Call.ev :=
      List.take_of_length_le (by rw [hn, List.length_map])
    rwa [htake, List.map_map] at hdrain

/-- **Capture round trip.** A writer whose every `fwrite` succeeds,
closed once and then any number of further times, leaves a file of
`24 + 88 n` bytes that opens with `n` events declared and drains to the
events written, all stored fields equal and the others zero. -/
theorem capture_roundTrip (cs : List Call) (again : List Outcome) (r₀ : PcapReader)
    (hall : ∀ ok ∈ (newWriter.writeAll cs).2, ok = true) :
    let file := (again.foldl PcapWriter.close (closedWriter cs)).file.bytes
    file.length = 24 + 88 * cs.length ∧
      ∃ r, r₀.open (some file) = (r, true) ∧ r.totalEvents.toNat = cs.length ∧
        Drains r (cs.map fun c => stored c.ev) := by
  rw [close_again (closedWriter_isOpen cs)]
  exact reads_written hall r₀

/-- Two events, the second with a `payload_len` beyond the array. -/
def twoEvents : List Call :=
  [⟨{ injectNs := 0x0102030405060708, payloadLen := 3 }, fun _ => .full⟩,
    ⟨{ receiveNs := 7, srcPort := 9999, payloadLen := 65535 }, fun _ => .full⟩]

theorem capture_roundTrip_twoEvents :
    (closedWriter twoEvents).file.bytes.length = 200 ∧
      ∃ r, PcapReader.fresh.open (some (closedWriter twoEvents).file.bytes) = (r, true) ∧
        Drains r (twoEvents.map fun c => stored c.ev) := by
  obtain ⟨hlen, r, hopen, -, hdrain⟩ :=
    capture_roundTrip twoEvents [] PcapReader.fresh (by decide)
  exact ⟨hlen, r, hopen, hdrain⟩

end UltrafastFeed.Pcap
