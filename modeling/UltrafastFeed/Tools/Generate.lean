import UltrafastFeed.Pcap.Crash

/-!
# Tools — Generate

`do_generate` of `replay_feed.cpp`: a capture of evenly spaced events. It
stops at the first `write_event` that fails, with exit code 1; on every
way out the destructor of the writer closes the file, so what was written
before stays readable. Whether `close` could patch the count is not
reported: a patch that fails leaves a count that is too small.

STDIO. As everywhere in `Pcap`, streams are unbuffered: an `fwrite`
reaches the file or fails at once. Where no write fails a buffer makes no
difference to the file that is left.
-/

namespace UltrafastFeed.ReplayFeed

open Lib.Endian Lib.ByteFile Pcap

/-! ## The model -/

/-- What the disk does: whether `fopen` succeeds, the outcomes of the
header's `fwrite`s, of those for event `i`, and of the count patch. -/
structure Disk where
  opened : Bool
  header : Nat → Outcome
  write : UInt64 → Nat → Outcome
  patch : Outcome

/-- Event `i`: the payload is filled with the low byte of `i`, then the
timestamp is copied over its start. -/
def generatedEvent (baseNs i : UInt64) : FeedEvent :=
  let injectNs := baseNs + i * 500000
  { injectNs := injectNs
    receiveNs := injectNs + 1500
    payloadLen := UInt16.ofNat kMaxPayload
    payload := payloadOf
      (u64Bytes injectNs ++ List.replicate (kMaxPayload - 8) (i &&& 0xFF).toUInt8) }

/-- The `for` loop, with the turns left; the index at which `write_event`
failed, if it did. -/
def generateLoop (write : UInt64 → Nat → Outcome) (baseNs : UInt64) :
    Nat → UInt64 → PcapWriter → PcapWriter × Option UInt64
  | 0, _, w => (w, none)
  | left + 1, i, w =>
      match w.writeEvent (write i) (generatedEvent baseNs i) with
      | (w', true) => generateLoop write baseNs left (i + 1) w'
      | (w', false) => (w', some i)

/-- What the tool reports. -/
inductive Generated where
  | cannotCreate
  | failedAt (i : UInt64)
  | generated (count : UInt64)
  deriving DecidableEq, Repr

def Generated.exitCode : Generated → Nat
  | .cannotCreate => 1
  | .failedAt _ => 1
  | .generated _ => 0

/-- `do_generate`: what it reports and the file it leaves, `none` when it
could not be created. -/
def doGenerate (disk : Disk) (baseNs count : UInt64) : Generated × Option (List UInt8) :=
  let w := PcapWriter.create disk.opened disk.header
  if w.isOpen then
    match generateLoop disk.write baseNs count.toNat 0 w with
    | (w', none) => (.generated count, some (w'.close disk.patch).file.bytes)
    | (w', some i) => (.failedAt i, some (w'.close disk.patch).file.bytes)
  else (.cannotCreate, none)

/-! ## The calls that the loop makes -/

def generatedCall (write : UInt64 → Nat → Outcome) (baseNs : UInt64) (i : Nat) : Call :=
  ⟨generatedEvent baseNs (UInt64.ofNat i), write (UInt64.ofNat i)⟩

def generatedEvents (baseNs : UInt64) (count : Nat) : List FeedEvent :=
  (List.range count).map fun i => generatedEvent baseNs (UInt64.ofNat i)

/-- The loop makes its calls in order, up to the first one that fails. By
induction on the turns left. -/
theorem generateLoop_calls (write : UInt64 → Nat → Outcome) (baseNs : UInt64) (left i : Nat)
    (w : PcapWriter) :
    ∃ k cs, cs = (List.range' i k).map (generatedCall write baseNs) ∧
      (k = left ∧ (w.writeAll cs).2 = List.replicate k true ∧
          generateLoop write baseNs left (UInt64.ofNat i) w = ((w.writeAll cs).1, none) ∨
        k < left ∧ ∃ last, (w.writeAll (cs ++ [last])).2 = List.replicate k true ++ [false] ∧
          last = generatedCall write baseNs (i + k) ∧
          generateLoop write baseNs left (UInt64.ofNat i) w
            = ((w.writeAll (cs ++ [last])).1, some (UInt64.ofNat (i + k)))) := by
  induction left generalizing i w with
  | zero => exact ⟨0, [], rfl, .inl ⟨rfl, rfl, rfl⟩⟩
  | succ left ih =>
      rw [generateLoop]
      cases hw : w.writeEvent (write (UInt64.ofNat i)) (generatedEvent baseNs (UInt64.ofNat i)) with
      | mk w' ok =>
          have hcall : ∀ cs, w.writeAll (generatedCall write baseNs i :: cs)
              = ((w'.writeAll cs).1, ok :: (w'.writeAll cs).2) := by
            intro cs
            rw [PcapWriter.writeAll, generatedCall, hw]
          cases ok with
          | false =>
              refine ⟨0, [], rfl, .inr ⟨Nat.succ_pos _, generatedCall write baseNs i, ?_, rfl, ?_⟩⟩
              · rw [List.nil_append, hcall]
                rfl
              · rw [List.nil_append, hcall]
                rfl
          | true =>
              have hnext : UInt64.ofNat i + 1 = UInt64.ofNat (i + 1) := (UInt64.ofNat_add i 1).symm
              obtain ⟨k, cs, hcs, hrest⟩ := ih (i + 1) w'
              refine ⟨k + 1, generatedCall write baseNs i :: cs, ?_, ?_⟩
              · rw [hcs, List.range'_succ, List.map_cons]
              · dsimp only
                rw [hnext, hcall]
                rcases hrest with ⟨hk, hall, heq⟩ | ⟨hk, last, hall, hlast, heq⟩
                · refine .inl ⟨by rw [hk], ?_, heq⟩
                  rw [hall, List.replicate_succ]
                · refine .inr ⟨Nat.succ_lt_succ hk, last, ?_, ?_, ?_⟩
                  · rw [List.cons_append, hcall, hall, List.replicate_succ, List.cons_append]
                  · rw [hlast, Nat.add_assoc, Nat.add_comm 1 k]
                  · rw [heq, List.cons_append, hcall, Nat.add_assoc, Nat.add_comm 1 k]

/-! ## What the file holds -/

/-- Calls that succeed, then one that fails: whole records, then the part
of a record that the last call got to. -/
theorem stops_at {pos : Nat} {cs : List Call} {last : Call}
    (h : results pos (cs ++ [last]) = List.replicate cs.length true ++ [false]) :
    successes pos (cs ++ [last]) = cs.map Call.ev ∧
      ∃ rest, body pos (cs ++ [last]) = ((cs.map Call.ev).map record).flatten ++ rest := by
  induction cs generalizing pos with
  | nil =>
      rw [List.nil_append, results, List.length_nil, List.replicate_zero, List.nil_append,
        List.cons.injEq] at h
      refine ⟨?_, _, rfl⟩
      rw [List.nil_append, successes, if_neg (by rw [h.1]; exact Bool.false_ne_true)]
      rfl
  | cons c cs ih =>
      rw [List.cons_append, results, List.length_cons, List.replicate_succ, List.cons_append,
        List.cons.injEq] at h
      obtain ⟨hok, hrest⟩ := h
      obtain ⟨hs, rest, hb⟩ := ih hrest
      obtain ⟨hk, -⟩ := callEffect_true hok
      have hfull : (record c.ev).take 88 = record c.ev := List.take_of_length_le (by simp)
      refine ⟨?_, rest, ?_⟩
      · rw [List.cons_append, successes, if_pos hok, hs, List.map_cons]
      · rw [List.cons_append, body, hb, hk, hfull, List.map_cons, List.map_cons,
          List.flatten_cons, List.append_assoc]

/-- How many bytes of the count reach the file when it is closed. -/
def patched : Outcome → Nat
  | .full => 8
  | .short k => min k 7

/-- A capture that is closed with any outcome of the count patch. -/
theorem close_bytes (cs : List Call) (patch : Outcome) :
    ((newWriter.writeAll cs).1.close patch).file.bytes
      = headerStart ++ tornCount (UInt64.ofNat (successes 24 cs).length) (patched patch)
        ++ body 24 cs := by
  have hend := replay_stores_end [] (header 0 ++ body 24 cs)
  rw [List.length_nil, List.nil_append] at hend
  have hjournal : ((newWriter.writeAll cs).1.close patch).file.journal
      = stores 0 (header 0 ++ body 24 cs) ++ (stores kCountOffset
          (u64Bytes (UInt64.ofNat (successes 24 cs).length))).take (patched patch) := by
    rw [newWriter_writeAll, stores_take]
    simp only [PcapWriter.close, if_true]
    cases patch with
    | full =>
        rw [OutFile.fwrite_full (by rw [u64Bytes_length]; exact (by decide : 16 + 8 ≤ maxOffset)),
          patched, List.take_of_length_le (by rw [u64Bytes_length])]
        simp [OutFile.emit, OutFile.fseek, OutFile.empty]
    | short k => simp [OutFile.fwrite, OutFile.emit, OutFile.fseek, OutFile.empty, patched]
  rw [OutFile.bytes, hjournal, replay_append, hend, replay_tornCount]

/-- Reading back a closed capture whose successes come first: as many of
them as the count field declares. -/
theorem reads_closed {cs : List Call} {evs : List FeedEvent} {rest : List UInt8}
    (hs : successes 24 cs = evs) (hb : body 24 cs = (evs.map record).flatten ++ rest)
    (patch : Outcome) (r₀ : PcapReader) :
    ∃ r, r₀.open (some ((newWriter.writeAll cs).1.close patch).file.bytes) = (r, true) ∧
      r.totalEvents.toNat = evs.length % 256 ^ patched patch ∧
      Drains r ((evs.take (evs.length % 256 ^ patched patch)).map stored) := by
  have hn : (UInt64.ofNat evs.length).toNat = evs.length := by
    rw [UInt64.toNat_ofNat', Nat.mod_eq_of_lt (hs ▸ successes_lt 24 cs)]
  obtain ⟨m, hm, hmod⟩ := tornCount_eq (UInt64.ofNat evs.length) (patched patch)
  rw [hn] at hmod
  have hle : m.toNat ≤ evs.length := Nat.le_trans (Nat.le_of_eq hmod) (Nat.mod_le _ _)
  obtain ⟨r, hopen, htotal, hdrain⟩ := @reads_back r₀ evs rest m hle
  rw [hmod] at hdrain
  refine ⟨r, ?_, by rw [htotal, hmod], hdrain⟩
  rw [close_bytes, hs, hm, hb, ← header_eq, ← List.append_assoc]
  exact hopen

theorem map_generatedCall (write : UInt64 → Nat → Outcome) (baseNs : UInt64) (k : Nat) :
    ((List.range' 0 k).map (generatedCall write baseNs)).map Call.ev
      = generatedEvents baseNs k := by
  rw [List.map_map, ← List.range_eq_range']
  rfl

theorem effect_full {ns : List Nat} {o : Nat → Outcome} {pos : Nat} (ho : ∀ j, o j = .full)
    (hfit : pos + ns.sum ≤ maxOffset) : effect pos o ns = (ns.sum, true) := by
  induction ns generalizing o pos with
  | nil => rfl
  | cons n ns ih =>
      rw [List.sum_cons] at hfit ⊢
      have hrest := @ih (fun j => o (j + 1)) (pos + n) (fun j => ho (j + 1)) (by omega)
      rw [effect, ho 0]
      dsimp only
      rw [if_pos (by omega), hrest]

/-- The effect of a `write_event` that meets no failure. -/
theorem callEffect_full {pos : Nat} {o : Nat → Outcome} (ho : ∀ j, o j = .full)
    (hfit : pos + 88 ≤ maxOffset) : callEffect pos o = (88, true) :=
  @effect_full recordSizes o pos ho hfit

/-- No call fails on a disk with room for the capture. -/
theorem results_full {pos : Nat} {cs : List Call} (hcs : ∀ c ∈ cs, ∀ j, c.o j = .full)
    (hfit : pos + 88 * cs.length ≤ maxOffset) : ∀ ok ∈ results pos cs, ok = true := by
  induction cs generalizing pos with
  | nil => exact fun ok hok => absurd hok List.not_mem_nil
  | cons c cs ih =>
      rw [List.length_cons] at hfit
      have hc := callEffect_full (hcs c List.mem_cons_self) (by omega : pos + 88 ≤ maxOffset)
      rw [results, hc]
      intro ok hok
      rcases List.mem_cons.mp hok with rfl | hok
      · rfl
      · exact ih (fun c hc => hcs c (List.mem_cons_of_mem _ hc)) (by dsimp only; omega) ok hok

theorem doGenerate_loop {write : UInt64 → Nat → Outcome} {patch : Outcome}
    {baseNs count : UInt64} {w : PcapWriter} {failed : Option UInt64}
    (h : generateLoop write baseNs count.toNat (UInt64.ofNat 0) newWriter = (w, failed)) :
    doGenerate ⟨true, fun _ => .full, write, patch⟩ baseNs count
      = (failed.elim (.generated count) .failedAt, some (w.close patch).file.bytes) := by
  rw [doGenerate]
  dsimp only
  rw [show generateLoop write baseNs count.toNat 0 (PcapWriter.create true fun _ => .full) = _
    from h]
  cases failed with
  | none => rfl
  | some i => rfl

/-- What `do_generate` does when the header can be written: the events
before the first failing call, and the report about it. -/
theorem doGenerate_file (write : UInt64 → Nat → Outcome) (patch : Outcome)
    (baseNs count : UInt64) :
    ∃ k cs rest, k ≤ count.toNat ∧ successes 24 cs = generatedEvents baseNs k ∧
      body 24 cs = ((generatedEvents baseNs k).map record).flatten ++ rest ∧
      doGenerate ⟨true, fun _ => .full, write, patch⟩ baseNs count
        = (if k = count.toNat then .generated count else .failedAt (UInt64.ofNat k),
            some ((newWriter.writeAll cs).1.close patch).file.bytes) ∧
      (k = count.toNat → rest = []) ∧
      ((∀ i j, write i j = .full) → 24 + 88 * count.toNat ≤ maxOffset → k = count.toNat) := by
  have hloop := generateLoop_calls write baseNs count.toNat 0 newWriter
  obtain ⟨k, cs, hcs, ⟨hk, hall, heq⟩ | ⟨hk, last, hall, hlast, heq⟩⟩ := hloop
  · have hevs : cs.map Call.ev = generatedEvents baseNs k := by
      rw [hcs, map_generatedCall]
    rw [newWriter_writeAll] at hall
    have htrue : ∀ ok ∈ results 24 cs, ok = true := by
      rw [show results 24 cs = _ from hall]
      exact fun ok => List.eq_of_mem_replicate
    obtain ⟨hs, hb⟩ := all_succeed htrue
    refine ⟨k, cs, [], Nat.le_of_eq hk, hs.trans hevs, ?_, ?_, fun _ => rfl, fun _ _ => hk⟩
    · rw [hb, hevs, List.append_nil]
    · rw [doGenerate_loop heq, if_pos hk, Option.elim_none]
  · have hevs : cs.map Call.ev = generatedEvents baseNs k := by
      rw [hcs, map_generatedCall]
    have hlen : cs.length = k := by rw [hcs, List.length_map, List.length_range']
    rw [newWriter_writeAll] at hall
    obtain ⟨hs, rest, hb⟩ := stops_at (hlen.symm ▸ hall)
    rw [hevs] at hs hb
    refine ⟨k, cs ++ [last], rest, Nat.le_of_lt hk, hs, hb, ?_,
      fun hall => absurd hall (Nat.ne_of_lt hk), fun hfull hfit => ?_⟩
    · rw [doGenerate_loop heq, if_neg (Nat.ne_of_lt hk), Option.elim_some, Nat.zero_add]
    · -- on such a disk the last call would not have failed
      have hno : ∀ ok ∈ results 24 (cs ++ [last]), ok = true := by
        apply results_full
        · intro c hc j
          rcases List.mem_append.mp hc with hc | hc
          · rw [hcs] at hc
            obtain ⟨i, -, rfl⟩ := List.mem_map.mp hc
            exact hfull _ _
          · rw [List.mem_singleton.mp hc, hlast]
            exact hfull _ _
        · rw [List.length_append, List.length_singleton, hlen]
          omega
      have hfalse : false ∈ results 24 (cs ++ [last]) := by
        rw [show results 24 (cs ++ [last]) = _ from hall]
        exact List.mem_append_right _ (List.mem_singleton.mpr rfl)
      exact absurd (hno false hfalse) Bool.false_ne_true

theorem generatedEvents_length (baseNs : UInt64) (k : Nat) :
    (generatedEvents baseNs k).length = k := by
  rw [generatedEvents, List.length_map, List.length_range]

theorem generatedEvents_take (baseNs : UInt64) {j k : Nat} (h : j ≤ k) :
    (generatedEvents baseNs k).take j = generatedEvents baseNs j := by
  rw [generatedEvents, generatedEvents, ← List.map_take, List.take_range, Nat.min_eq_left h]

/-- The capture that a disk on which no write fails gets. -/
def capture (baseNs count : UInt64) : List UInt8 :=
  header count ++ ((generatedEvents baseNs count.toNat).map record).flatten

theorem doGenerate_full {write : UInt64 → Nat → Outcome} (baseNs : UInt64) {count : UInt64}
    (hfull : ∀ i j, write i j = .full) (hfit : 24 + 88 * count.toNat ≤ maxOffset) :
    doGenerate ⟨true, fun _ => .full, write, .full⟩ baseNs count
      = (.generated count, some (capture baseNs count)) := by
  obtain ⟨k, cs, rest, -, hs, hb, hout, hrest, hroom⟩ :=
    doGenerate_file write .full baseNs count
  have hk := hroom hfull hfit
  have hbytes : ((newWriter.writeAll cs).1.close .full).file.bytes = _ := closedWriter_bytes cs
  rw [hout, if_pos hk, hbytes, hs, hb, hrest hk, hk, generatedEvents_length, UInt64.ofNat_toNat,
    List.append_nil, capture]

end UltrafastFeed.ReplayFeed
