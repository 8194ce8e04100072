import UltrafastFeed.FeedEvent
import UltrafastFeed.Lib.ByteFile

/-!
# Pcap — Writer

`PcapWriter` (`pcap_writer.hpp`): the header, one 88-byte record per
event written by five `fwrite`s, and the count patched in place when the
writer is closed. The outcome of every `fwrite` is an argument, so a
full disk can hit any of them.

`writeEvent` is the interesting one: it returns at the first `fwrite`
that fails and leaves whatever the earlier ones put into the file.
`body` says what a sequence of calls leaves behind.
-/

namespace UltrafastFeed.Pcap

open Lib.Endian Lib.ByteFile

def kMagic : UInt64 := 0x5546415354464545
def kVersion : UInt32 := 1
def kCountOffset : Nat := 16

/-- The file behind `file_`, whether `file_` is non-null, and `count_`. -/
structure PcapWriter where
  file : OutFile
  isOpen : Bool
  count : UInt64
  deriving DecidableEq, Repr

/-- `write_header`: the results of the four `fwrite`s are ignored. -/
def writeHeader (f : OutFile) (o : Nat → Outcome) : OutFile :=
  let f := (f.fwrite (o 0) (u64Bytes kMagic)).1
  let f := (f.fwrite (o 1) (u32Bytes kVersion)).1
  let f := (f.fwrite (o 2) (u32Bytes 0)).1
  (f.fwrite (o 3) (u64Bytes 0)).1

/-- The constructor; `opened` says whether `fopen` succeeded. -/
def PcapWriter.create (opened : Bool) (o : Nat → Outcome) : PcapWriter :=
  if opened then ⟨writeHeader OutFile.empty o, true, 0⟩
  else ⟨OutFile.empty, false, 0⟩

/-- The five objects that `write_event` writes, in order. -/
def recordFields (ev : FeedEvent) : List (List UInt8) :=
  [u64Bytes ev.injectNs, u64Bytes ev.receiveNs, u16Bytes ev.payloadLen,
    List.replicate 6 0, ev.payload.toList]

/-- `write_event`. -/
def PcapWriter.writeEvent (w : PcapWriter) (o : Nat → Outcome) (ev : FeedEvent) :
    PcapWriter × Bool :=
  if w.isOpen then
    match w.file.fwrites o (recordFields ev) with
    | (f, true) => ({ w with file := f, count := w.count + 1 }, true)
    | (f, false) => ({ w with file := f }, false)
  else (w, false)

/-- `close`, also the destructor; `o` is the outcome of the count patch. -/
def PcapWriter.close (w : PcapWriter) (o : Outcome) : PcapWriter :=
  if w.isOpen then
    { w with
      file := ((w.file.fseek kCountOffset).fwrite o (u64Bytes w.count)).1
      isOpen := false }
  else w

/-- One call of `write_event`, with what the disk does to it. -/
structure Call where
  ev : FeedEvent
  o : Nat → Outcome

/-- A sequence of `write_event` calls and their results. -/
def PcapWriter.writeAll (w : PcapWriter) : List Call → PcapWriter × List Bool
  | [] => (w, [])
  | c :: cs =>
      let (w₁, ok) := w.writeEvent c.o c.ev
      let (w₂, oks) := w₁.writeAll cs
      (w₂, ok :: oks)

/-! ## Records and headers as byte strings -/

def header (count : UInt64) : List UInt8 :=
  u64Bytes kMagic ++ u32Bytes kVersion ++ u32Bytes 0 ++ u64Bytes count

def record (ev : FeedEvent) : List UInt8 := (recordFields ev).flatten

def recordSizes : List Nat := [8, 8, 2, 6, 64]

@[simp] theorem header_length (n : UInt64) : (header n).length = 24 := by
  simp [header]

theorem recordFields_sizes (ev : FeedEvent) :
    (recordFields ev).map List.length = recordSizes := by
  simp only [recordFields, recordSizes, List.map_cons, List.map_nil, u64Bytes_length,
    u16Bytes_length, List.length_replicate, payload_length]

@[simp] theorem record_length (ev : FeedEvent) : (record ev).length = 88 := by
  rw [record, List.length_flatten, recordFields_sizes]
  rfl

/-! ## What the calls leave in the file -/

/-- The effect of one `write_event` at file size `pos`: how many bytes of
the record reach the file, and what the call returns. -/
def callEffect (pos : Nat) (o : Nat → Outcome) : Nat × Bool :=
  effect pos o recordSizes

theorem callEffect_true {pos : Nat} {o : Nat → Outcome}
    (h : (callEffect pos o).2 = true) :
    (callEffect pos o).1 = 88 ∧ pos + 88 ≤ maxOffset :=
  effect_true (by decide) h

/-- The results of the calls, from file size `pos` on. -/
def results : Nat → List Call → List Bool
  | _, [] => []
  | pos, c :: cs =>
      (callEffect pos c.o).2 :: results (pos + (callEffect pos c.o).1) cs

/-- The bytes that the calls append, from file size `pos` on: of each
record the part that its call got to. -/
def body : Nat → List Call → List UInt8
  | _, [] => []
  | pos, c :: cs =>
      (record c.ev).take (callEffect pos c.o).1
        ++ body (pos + (callEffect pos c.o).1) cs

/-- The events whose call returned true. -/
def successes : Nat → List Call → List FeedEvent
  | _, [] => []
  | pos, c :: cs =>
      if (callEffect pos c.o).2
      then c.ev :: successes (pos + (callEffect pos c.o).1) cs
      else successes (pos + (callEffect pos c.o).1) cs

theorem callEffect_le (pos : Nat) (o : Nat → Outcome) :
    (callEffect pos o).1 ≤ 88 := by
  have hgen : ∀ (ns : List Nat) (pos : Nat) (o : Nat → Outcome),
      (effect pos o ns).1 ≤ ns.sum := by
    intro ns
    induction ns with
    | nil => intro pos o; exact Nat.le_refl _
    | cons n ns ih =>
        intro pos o
        simp only [effect, List.sum_cons]
        split
        · split
          · have := ih (pos + n) (fun i => o (i + 1))
            dsimp only
            omega
          · exact Nat.zero_le _
        · dsimp only
          omega
  exact hgen recordSizes pos o

/-- **One call**: the file grows by the part of the record that the call
got to, and the count by one exactly when the call returns true. -/
theorem PcapWriter.writeEvent_eq {w : PcapWriter} (hopen : w.isOpen = true)
    (o : Nat → Outcome) (ev : FeedEvent) :
    w.writeEvent o ev =
      ({ w with
          file := w.file.emit ((record ev).take (callEffect w.file.pos o).1)
          count := if (callEffect w.file.pos o).2 then w.count + 1 else w.count },
        (callEffect w.file.pos o).2) := by
  simp only [writeEvent, hopen, if_true]
  rw [OutFile.fwrites_eq, recordFields_sizes]
  cases h : (callEffect w.file.pos o).2 <;>
    simp [callEffect] at h <;> simp [callEffect, record, h]

/-- **A sequence of calls**: what they append, what they return and what
they add to the count. -/
theorem PcapWriter.writeAll_eq {w : PcapWriter} (hopen : w.isOpen = true)
    (cs : List Call) :
    w.writeAll cs =
      ({ w with
          file := w.file.emit (body w.file.pos cs)
          count := w.count + UInt64.ofNat (successes w.file.pos cs).length },
        results w.file.pos cs) := by
  induction cs generalizing w with
  | nil => simp [writeAll, body, successes, results]
  | cons c cs ih =>
      have hlen : ((record c.ev).take (callEffect w.file.pos c.o).1).length
          = (callEffect w.file.pos c.o).1 := by
        have := callEffect_le w.file.pos c.o
        rw [List.length_take, record_length]
        omega
      simp only [writeAll]
      rw [writeEvent_eq hopen]
      simp only
      rw [ih (by exact hopen)]
      simp only [OutFile.emit_pos, hlen, body, results, successes,
        OutFile.emit_append, Prod.mk.injEq, PcapWriter.mk.injEq, true_and, and_true]
      cases (callEffect w.file.pos c.o).2 with
      | false => simp
      | true =>
          simp only [if_true, List.length_cons, UInt64.ofNat_add]
          rw [UInt64.add_assoc, UInt64.add_comm 1]
          rfl

/-! ## A fresh writer -/

/-- The header of a writer whose header `fwrite`s succeed. -/
theorem create_file :
    (PcapWriter.create true fun _ => .full) =
      ⟨OutFile.empty.emit (header 0), true, 0⟩ := by
  have h₁ : OutFile.empty.fwrite .full (u64Bytes kMagic)
      = (OutFile.empty.emit (u64Bytes kMagic), true) :=
    OutFile.fwrite_full (by decide)
  have h₂ : (OutFile.empty.emit (u64Bytes kMagic)).fwrite .full (u32Bytes kVersion)
      = (OutFile.empty.emit (u64Bytes kMagic ++ u32Bytes kVersion), true) := by
    rw [OutFile.fwrite_full (by decide), ← OutFile.emit_append]
  have h₃ : (OutFile.empty.emit (u64Bytes kMagic ++ u32Bytes kVersion)).fwrite .full
        (u32Bytes 0)
      = (OutFile.empty.emit (u64Bytes kMagic ++ u32Bytes kVersion ++ u32Bytes 0), true) := by
    rw [OutFile.fwrite_full (by decide), ← OutFile.emit_append]
  have h₄ : (OutFile.empty.emit (u64Bytes kMagic ++ u32Bytes kVersion ++ u32Bytes 0)).fwrite
        .full (u64Bytes 0)
      = (OutFile.empty.emit (header 0), true) := by
    rw [OutFile.fwrite_full (by decide), ← OutFile.emit_append]
    rfl
  simp only [PcapWriter.create, if_true, writeHeader, h₁, h₂, h₃, h₄]

/-- The successes fit into the offset range. -/
theorem successes_fit (pos : Nat) (cs : List Call) :
    (successes pos cs).length = 0 ∨
      pos + 88 * (successes pos cs).length ≤ maxOffset := by
  induction cs generalizing pos with
  | nil => exact .inl rfl
  | cons c cs ih =>
      have hrest := ih (pos + (callEffect pos c.o).1)
      rw [successes]
      by_cases hok : (callEffect pos c.o).2 = true
      · obtain ⟨hk, hfit⟩ := callEffect_true hok
        rw [if_pos hok, List.length_cons]
        rw [hk] at hrest ⊢
        rcases hrest with h0 | hle
        · right
          omega
        · right
          omega
      · rw [if_neg hok]
        rcases hrest with h0 | hle
        · exact .inl h0
        · right
          omega

theorem successes_lt (pos : Nat) (cs : List Call) :
    (successes pos cs).length < 2 ^ 64 := by
  have h := successes_fit pos cs
  have hmax : maxOffset = 2 ^ 63 - 1 := rfl
  omega

end UltrafastFeed.Pcap
