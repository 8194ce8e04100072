import UltrafastFeed.Pcap.Writer

/-!
# Pcap — Reader

`PcapReader` (`pcap_reader.hpp`): `open` reads and validates the header,
`next` reads one record by five `fread`s. `next` stops at the declared
count or at the first short read, whichever comes first; a short read
leaves the cursor at the end of the file and `events_read_` as it was.

The abstract side is `Drains r es`: calling `next` until it returns
nothing yields `es`. On a file whose body starts with whole records the
reader drains exactly as many of them as the header declares.
-/

namespace UltrafastFeed.Pcap

open Lib.Endian Lib.ByteFile

/-- `file_` (`none` is the null pointer), `total_events_` and
`events_read_`. -/
structure PcapReader where
  file : Option InFile
  totalEvents : UInt64
  eventsRead : UInt64
  deriving DecidableEq, Repr

/-- A default-constructed reader. -/
def PcapReader.fresh : PcapReader := ⟨none, 0, 0⟩

def PcapReader.close (_ : PcapReader) : PcapReader := ⟨none, 0, 0⟩

/-- `open`. `file` is what is found at the path, `none` when `fopen`
fails. A failing `fopen` overwrites `file_` and nothing else. -/
def PcapReader.open (r : PcapReader) (file : Option (List UInt8)) :
    PcapReader × Bool :=
  match file with
  | none => ({ r with file := none }, false)
  | some bs =>
      match (InFile.open bs).freads [8, 4, 4, 8] with
      | (some [magic, version, _, count], f) =>
          if toU64 magic ≠ kMagic ∨ toU32 version ≠ kVersion then (r.close, false)
          else (⟨some f, toU64 count, 0⟩, true)
      | _ => (r.close, false)

/-- The event that the five objects of a record decode to. -/
def decodeFields : List (List UInt8) → FeedEvent
  | [inject, receive, len, _, pay] =>
      { injectNs := toU64 inject, receiveNs := toU64 receive,
        payloadLen := toU16 len, payload := payloadOf pay }
  | _ => {}

/-- `next`. -/
def PcapReader.next (r : PcapReader) : Option FeedEvent × PcapReader :=
  match r.file with
  | none => (none, r)
  | some f =>
      if r.totalEvents ≤ r.eventsRead then (none, r)
      else
        match f.freads recordSizes with
        | (none, g) => (none, { r with file := some g })
        | (some fields, g) =>
            (some (decodeFields fields),
              { r with file := some g, eventsRead := r.eventsRead + 1 })

/-- Calling `next` until it returns nothing yields the list. -/
inductive Drains : PcapReader → List FeedEvent → Prop where
  | done {r r' : PcapReader} : r.next = (none, r') → Drains r []
  | more {r r' : PcapReader} {e : FeedEvent} {es : List FeedEvent} :
      r.next = (some e, r') → Drains r' es → Drains r (e :: es)

theorem Drains.unique {r : PcapReader} {es es' : List FeedEvent}
    (h : Drains r es) (h' : Drains r es') : es = es' := by
  induction h generalizing es' with
  | done hn =>
      cases h' with
      | done _ => rfl
      | more hn' _ => rw [hn] at hn'; cases hn'
  | more hn _ ih =>
      cases h' with
      | done hn' => rw [hn] at hn'; cases hn'
      | more hn' hd =>
          rw [hn] at hn'
          cases hn'
          rw [ih hd]

/-! ## Decoding one record -/

/-- The event that the 88 bytes of a record decode to. -/
def decode (bs : List UInt8) : FeedEvent := decodeFields (pieces bs recordSizes)

/-- What the file keeps of an event. -/
def stored (ev : FeedEvent) : FeedEvent :=
  { ev with srcIp := 0, srcPort := 0, dstPort := 0 }

/-- **One record round-trips**, whatever follows it. -/
theorem decode_record (ev : FeedEvent) (rest : List UInt8) :
    decode (record ev ++ rest) = stored ev := by
  have hp : pieces (record ev ++ rest) recordSizes = recordFields ev := by
    rw [record, ← recordFields_sizes ev]
    exact pieces_append _ _
  rw [decode, hp]
  simp [recordFields, decodeFields, stored]

theorem recordSizes_sum : recordSizes.sum = 88 := rfl

/-- A reader with records left and 88 bytes to read them from. -/
theorem next_some {bs : List UInt8} {p : Nat} {n k : UInt64} (hlt : k < n)
    (hlen : p + 88 ≤ bs.length) :
    (PcapReader.mk (some ⟨bs, p⟩) n k).next =
      (some (decode (bs.drop p)), ⟨some ⟨bs, p + 88⟩, n, k + 1⟩) := by
  have hread : InFile.freads ⟨bs, p⟩ recordSizes
      = (some (pieces (bs.drop p) recordSizes), ⟨bs, p + 88⟩) := by
    rw [InFile.freads_enough (by rw [recordSizes_sum]; exact hlen), recordSizes_sum]
  simp only [PcapReader.next, hread, decode]
  rw [if_neg (UInt64.not_le.mpr hlt)]

/-- A reader that stands before a whole record reads it. -/
theorem next_record {pre rest : List UInt8} {n k : UInt64} (ev : FeedEvent)
    (hlt : k < n) :
    (PcapReader.mk (some ⟨pre ++ record ev ++ rest, pre.length⟩) n k).next =
      (some (stored ev),
        ⟨some ⟨pre ++ record ev ++ rest, (pre ++ record ev).length⟩, n, k + 1⟩) := by
  rw [next_some hlt (by simp), List.append_assoc, List.drop_left, decode_record,
    List.length_append, record_length]

/-- A reader that has read what the header declares. -/
theorem next_done {f : InFile} {n k : UInt64} (hle : n ≤ k) :
    (PcapReader.mk (some f) n k).next = (none, ⟨some f, n, k⟩) := by
  simp only [PcapReader.next, if_pos hle]

/-- A reader with records left and too few bytes. -/
theorem next_short {bs : List UInt8} {p : Nat} {n k : UInt64} (hlt : k < n)
    (hp : p ≤ bs.length) (hlen : bs.length < p + 88) :
    (PcapReader.mk (some ⟨bs, p⟩) n k).next =
      (none, ⟨some ⟨bs, bs.length⟩, n, k⟩) := by
  have hread : InFile.freads ⟨bs, p⟩ recordSizes = (none, ⟨bs, bs.length⟩) :=
    InFile.freads_short hp (by rw [recordSizes_sum]; exact hlen)
  simp only [PcapReader.next, hread]
  rw [if_neg (UInt64.not_le.mpr hlt)]

/-! ## Opening and draining a file -/

/-- A file that starts with a header opens, with the declared count. -/
theorem open_header (r : PcapReader) (n : UInt64) (bs : List UInt8) :
    r.open (some (header n ++ bs)) =
      (⟨some ⟨header n ++ bs, 24⟩, n, 0⟩, true) := by
  have hp : pieces (header n ++ bs) [8, 4, 4, 8]
      = [u64Bytes kMagic, u32Bytes kVersion, u32Bytes 0, u64Bytes n] := by
    have := pieces_append [u64Bytes kMagic, u32Bytes kVersion, u32Bytes 0, u64Bytes n] bs
    simpa [header] using this
  have hread : (InFile.open (header n ++ bs)).freads [8, 4, 4, 8]
      = (some [u64Bytes kMagic, u32Bytes kVersion, u32Bytes 0, u64Bytes n],
          ⟨header n ++ bs, 24⟩) := by
    rw [InFile.freads_enough (by simp [InFile.open]), InFile.open]
    simp [hp]
  simp only [PcapReader.open, hread]
  rw [if_neg (by simp)]
  simp

/-- A file shorter than a header is refused. -/
theorem open_short {bs : List UInt8} (h : bs.length < 24) (r : PcapReader) :
    r.open (some bs) = (r.close, false) := by
  have hread : (InFile.open bs).freads [8, 4, 4, 8] = (none, ⟨bs, bs.length⟩) :=
    InFile.freads_short (Nat.zero_le _) (by simpa [InFile.open] using h)
  simp only [PcapReader.open, hread]

theorem uint64_succ_toNat {k n : UInt64} (h : k < n) : (k + 1).toNat = k.toNat + 1 := by
  have hk : k.toNat < n.toNat := UInt64.lt_iff_toNat_lt.mp h
  have hn := n.toNat_lt
  rw [UInt64.toNat_add]
  simp only [UInt64.reduceToNat]
  omega

/-- **Draining**: a reader at the start of a run of whole records, with
`m` of them still declared, drains the first `m`. The induction is on
the records; the cursor moves by one record and the number left to read
falls by one. -/
theorem drains_records {evs : List FeedEvent} {pre rest : List UInt8} {n k : UInt64}
    {m : Nat} (hk : k.toNat + m = n.toNat) (hm : m ≤ evs.length) :
    Drains ⟨some ⟨pre ++ (evs.map record).flatten ++ rest, pre.length⟩, n, k⟩
      ((evs.take m).map stored) := by
  induction evs generalizing pre k m with
  | nil =>
      have hm0 : m = 0 := Nat.le_zero.mp hm
      subst hm0
      exact .done (next_done (UInt64.le_iff_toNat_le.mpr (by omega)))
  | cons ev evs ih =>
      cases m with
      | zero => exact .done (next_done (UInt64.le_iff_toNat_le.mpr (by omega)))
      | succ m =>
          have hlt : k < n := UInt64.lt_iff_toNat_lt.mpr (by omega)
          have hfile : pre ++ ((ev :: evs).map record).flatten ++ rest
              = pre ++ record ev ++ ((evs.map record).flatten ++ rest) := by
            simp
          have hrest := @ih (pre ++ record ev) (k + 1) m
            (by rw [uint64_succ_toNat hlt]; omega) (by simpa using hm)
          rw [List.append_assoc (pre ++ record ev)] at hrest
          rw [hfile, List.take_succ_cons, List.map_cons]
          exact .more (next_record ev hlt) hrest

/-- **Reading a file back**: header with count `n`, at least `n` whole
records, anything after them. -/
theorem reads_back (r₀ : PcapReader) {evs : List FeedEvent} {rest : List UInt8}
    {n : UInt64} (hn : n.toNat ≤ evs.length) :
    ∃ r, r₀.open (some (header n ++ (evs.map record).flatten ++ rest)) = (r, true) ∧
      r.totalEvents = n ∧ Drains r ((evs.take n.toNat).map stored) := by
  refine ⟨⟨some ⟨header n ++ (evs.map record).flatten ++ rest, 24⟩, n, 0⟩, ?_, rfl, ?_⟩
  · rw [List.append_assoc]
    exact open_header r₀ n _
  · rw [← header_length n]
    exact drains_records (by simp) hn

end UltrafastFeed.Pcap
