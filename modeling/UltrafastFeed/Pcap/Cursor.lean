import UltrafastFeed.Lib.Machine
import UltrafastFeed.Pcap.Reader

/-!
# Pcap — Cursor

What a reader does on an ARBITRARY file that `open` accepts: the declared
count may disagree with the size, the last record may be cut off, bytes
may follow it. The abstract object is a number `k`, the records read
since the last `rewind`; `next` returns record `k` as long as the file
declares and holds one.

A short read is the delicate step: it moves the file position to the end
and leaves `events_read_`. The position is therefore that of record `k`
or, with no record left, anything from there to the end.
-/

namespace UltrafastFeed.Pcap

open Lib.Endian Lib.ByteFile Lib.Machine

/-! ## The model -/

/-- `rewind`: past the 24-byte header. -/
def PcapReader.rewind (r : PcapReader) : Bool × PcapReader :=
  match r.file with
  | none => (false, r)
  | some f => (true, { r with file := some (f.fseek (kCountOffset + 8)), eventsRead := 0 })

inductive Use where
  | next
  | rewind
  deriving DecidableEq, Repr

inductive Answer where
  | event (e : Option FeedEvent)
  | rewound (ok : Bool)
  deriving DecidableEq, Repr

def PcapReader.use (r : PcapReader) : Use → Answer × PcapReader
  | .next => (.event r.next.1, r.next.2)
  | .rewind => (.rewound r.rewind.1, r.rewind.2)

/-- How many calls of `next` have succeeded since the last `rewind`. -/
def sinceRewind : Nat → List Answer → Nat
  | k, [] => k
  | k, .event (some _) :: as => sinceRewind (k + 1) as
  | k, .event none :: as => sinceRewind k as
  | _, .rewound _ :: as => sinceRewind 0 as

/-! ## The file -/

/-- The count field of the header. -/
def declared (bs : List UInt8) : UInt64 := toU64 ((bs.drop 16).take 8)

/-- The records that the file both declares and holds. -/
def recordCount (bs : List UInt8) : Nat := min (declared bs).toNat ((bs.length - 24) / 88)

/-- The bytes of record `k`. -/
def recordBytes (bs : List UInt8) (k : Nat) : List UInt8 := (bs.drop (24 + 88 * k)).take 88

/-- Record `k`, field by field: the timestamps at offsets 0 and 8 of the
record, the payload's length at 16, padding, the payload at 24. -/
def recordAt (bs : List UInt8) (k : Nat) : FeedEvent where
  injectNs := toU64 ((bs.drop (24 + 88 * k)).take 8)
  receiveNs := toU64 ((bs.drop (24 + 88 * k + 8)).take 8)
  payloadLen := toU16 ((bs.drop (24 + 88 * k + 16)).take 2)
  payload := Vector.ofFn fun i => ((bs.drop (24 + 88 * k + 24)).take 64).getD i.val 0

/-- The records that can be read, decoded. -/
def events (bs : List UInt8) : List FeedEvent :=
  (List.range (recordCount bs)).map fun k => decode (recordBytes bs k)

/-- The abstract reader of the file. -/
def cursor (bs : List UInt8) (k : Nat) : Use → Answer × Nat
  | .next =>
      if k < recordCount bs then (.event (some (decode (recordBytes bs k))), k + 1)
      else (.event none, k)
  | .rewind => (.rewound true, 0)

/-- Decoding looks at the 88 bytes of the record only. -/
theorem decode_take (bs : List UInt8) : decode (bs.take 88) = decode bs := by
  simp only [decode, recordSizes, pieces, List.drop_take, List.take_take, List.drop_drop]
  rfl

theorem decode_recordBytes (bs : List UInt8) (k : Nat) :
    decode (recordBytes bs k) = recordAt bs k := by
  rw [recordBytes, decode_take, recordAt]
  simp only [decode, decodeFields, recordSizes, pieces, payloadOf, List.drop_drop]

/-- What `open` accepts, and the reader it leaves. -/
theorem open_true {r₀ r : PcapReader} {bs : List UInt8} (h : r₀.open (some bs) = (r, true)) :
    24 ≤ bs.length ∧ r = ⟨some ⟨bs, 24⟩, declared bs, 0⟩ := by
  by_cases hlen : bs.length < 24
  · rw [open_short hlen] at h
    cases h
  · have hread : (InFile.open bs).freads [8, 4, 4, 8]
        = (some (pieces bs [8, 4, 4, 8]), ⟨bs, 24⟩) :=
      InFile.freads_enough (show 0 + 24 ≤ bs.length by omega)
    have hcount : (((bs.drop 8).drop 4).drop 4).take 8 = (bs.drop 16).take 8 := by
      rw [List.drop_drop, List.drop_drop]
    simp only [PcapReader.open, hread, pieces, hcount] at h
    split at h
    · cases h
    · cases h
      exact ⟨by omega, rfl⟩

/-! ## The abstraction -/

/-- The reader of `bs` has read `k` records: with a record left its
position is that record's, otherwise it may be past it. -/
structure AtRecord (bs : List UInt8) (r : PcapReader) (k : Nat) : Prop where
  file : ∃ p, r.file = some ⟨bs, p⟩ ∧ 24 + 88 * k ≤ p ∧ p ≤ bs.length ∧
    (k < recordCount bs → p = 24 + 88 * k)
  total : r.totalEvents = declared bs
  read : r.eventsRead.toNat = k
  le : k ≤ recordCount bs

variable {bs : List UInt8} {r r₀ : PcapReader} {k : Nat}

theorem atRecord_open (h : r₀.open (some bs) = (r, true)) : AtRecord bs r 0 := by
  obtain ⟨hlen, rfl⟩ := open_true h
  exact ⟨⟨24, rfl, Nat.le_refl _, hlen, fun _ => rfl⟩, rfl, rfl, Nat.zero_le _⟩

/-- With a record left `next` returns it. -/
theorem AtRecord.next_left (h : AtRecord bs r k) (hk : k < recordCount bs) :
    r.next.1 = some (decode (recordBytes bs k)) ∧ AtRecord bs r.next.2 (k + 1) := by
  obtain ⟨⟨p, hf, -, -, hp⟩, htotal, hread, -⟩ := h
  obtain rfl : p = 24 + 88 * k := hp hk
  rw [recordCount] at hk
  have hfit : 24 + 88 * k + 88 ≤ bs.length := by omega
  have hlt : r.eventsRead < r.totalEvents := by
    rw [UInt64.lt_iff_toNat_lt, htotal, hread]
    omega
  have hnext := next_some hlt hfit
  obtain ⟨f, n, e⟩ := r
  cases hf
  rw [hnext, recordBytes, decode_take]
  refine ⟨rfl, ⟨⟨_, rfl, by omega, hfit, fun _ => by omega⟩, htotal, ?_, ?_⟩⟩
  · rw [uint64_succ_toNat hlt, hread]
  · rw [recordCount]
    omega

/-- Without one it returns nothing, and stays where it is. -/
theorem AtRecord.next_none (h : AtRecord bs r k) (hk : recordCount bs ≤ k) :
    r.next.1 = none ∧ AtRecord bs r.next.2 k := by
  obtain ⟨⟨p, hf, hle, hpl, hp⟩, htotal, hread, hmax⟩ := id h
  obtain ⟨f, n, e⟩ := r
  cases hf
  by_cases hdone : n ≤ e
  · rw [next_done hdone]
    exact ⟨rfl, h⟩
  · -- the count declares more than the file holds: a short read
    have hlt : e < n := UInt64.not_le.mp hdone
    have hlt' : e.toNat < n.toNat := UInt64.lt_iff_toNat_lt.mp hlt
    have hn : n = declared bs := htotal
    have he : e.toNat = k := hread
    rw [hn, he] at hlt'
    have hshort : bs.length < p + 88 := by
      rw [recordCount] at hk
      omega
    rw [next_short hlt hpl hshort]
    exact ⟨rfl, ⟨⟨_, rfl, Nat.le_trans hle hpl, Nat.le_refl _, fun h' => by omega⟩, htotal,
      hread, hmax⟩⟩

theorem AtRecord.rewind (h : AtRecord bs r k) :
    r.rewind.1 = true ∧ AtRecord bs r.rewind.2 0 := by
  obtain ⟨⟨p, hf, hle, hpl, -⟩, htotal, -, -⟩ := h
  simp only [PcapReader.rewind, hf]
  exact ⟨trivial, ⟨⟨24, rfl, Nat.le_refl _, by omega, fun _ => rfl⟩, htotal, rfl, Nat.zero_le _⟩⟩

/-- **The reader of a file refines the cursor over its records.** -/
theorem use_simulates (bs : List UInt8) :
    Simulates PcapReader.use (cursor bs) (AtRecord bs) where
  answer := by
    intro r k u h
    cases u with
    | next =>
        by_cases hk : k < recordCount bs
        · simp only [PcapReader.use, cursor, if_pos hk, (h.next_left hk).1]
        · simp only [PcapReader.use, cursor, if_neg hk, (h.next_none (Nat.not_lt.mp hk)).1]
    | rewind => simp only [PcapReader.use, cursor, h.rewind.1]
  keeps := by
    intro r k u h
    cases u with
    | next =>
        by_cases hk : k < recordCount bs
        · simp only [PcapReader.use, cursor, if_pos hk]
          exact (h.next_left hk).2
        · simp only [PcapReader.use, cursor, if_neg hk]
          exact (h.next_none (Nat.not_lt.mp hk)).2
    | rewind => exact h.rewind.2

/-- The cursor counts the successes since the last `rewind`. -/
theorem cursor_after (bs : List UInt8) (k : Nat) (us : List Use) :
    after (cursor bs) k us = sinceRewind k (answers (cursor bs) k us) := by
  induction us generalizing k with
  | nil => rfl
  | cons u us ih =>
      rw [after, answers, ih]
      cases u with
      | next =>
          by_cases hk : k < recordCount bs
          · simp only [cursor, if_pos hk, sinceRewind]
          · simp only [cursor, if_neg hk, sinceRewind]
      | rewind => rfl

/-- A reader with no record left answers every further `next` alike. -/
theorem AtRecord.stays_none (h : AtRecord bs r k) (hk : recordCount bs ≤ k) (n : Nat) :
    answers PcapReader.use r (List.replicate n .next) = List.replicate n (.event none) := by
  induction n generalizing r with
  | zero => rfl
  | succ n ih =>
      obtain ⟨hnone, hat⟩ := h.next_none hk
      rw [List.replicate_succ, List.replicate_succ, answers]
      simp only [PcapReader.use, hnone]
      rw [ih hat]

/-- **The reader is an exact cursor.** On every file that `open` accepts
and after every sequence of `next` and `rewind` calls, with `k` the
successful calls of `next` since the last `rewind`: `events_read()` is
`k`, at most `total_events()`, which is the declared count; `next`
returns record `k`, each field from its place, if the file declares and
holds it and nothing otherwise; after nothing it keeps returning nothing; and `rewind`
succeeds. -/
theorem reader_exact_cursor (r₀ r : PcapReader) (bs : List UInt8)
    (hopen : r₀.open (some bs) = (r, true)) (us : List Use) :
    let k := sinceRewind 0 (answers PcapReader.use r us)
    let r' := after PcapReader.use r us
    r'.eventsRead.toNat = k ∧ k ≤ r'.totalEvents.toNat ∧ r'.totalEvents = declared bs ∧
      r'.next.1 = (if k < min (declared bs).toNat ((bs.length - 24) / 88)
        then some (recordAt bs k) else none) ∧
      (r'.next.1 = none → ∀ n, answers PcapReader.use r' (List.replicate n .next)
        = List.replicate n (.event none)) ∧
      r'.rewind.1 = true := by
  have hsim := use_simulates bs
  have hopen := atRecord_open hopen
  have hat : AtRecord bs (after PcapReader.use r us)
      (sinceRewind 0 (answers PcapReader.use r us)) := by
    rw [hsim.answers_eq hopen, ← cursor_after]
    exact hsim.after hopen us
  dsimp only
  generalize sinceRewind 0 (answers PcapReader.use r us) = k at hat ⊢
  generalize after PcapReader.use r us = r' at hat ⊢
  have hle : k ≤ (declared bs).toNat := Nat.le_trans hat.le (Nat.min_le_left _ _)
  refine ⟨hat.read, by rw [hat.total]; exact hle, hat.total, ?_, ?_, hat.rewind.1⟩
  · by_cases hk : k < recordCount bs
    · rw [(hat.next_left hk).1, decode_recordBytes]
      exact (if_pos hk).symm
    · rw [(hat.next_none (Nat.not_lt.mp hk)).1]
      exact (if_neg hk).symm
  · intro hnone
    refine hat.stays_none ?_
    by_contra hk
    rw [(hat.next_left (Nat.not_le.mp hk)).1] at hnone
    cases hnone

/-- Two records declared, the second one cut off after ten bytes. -/
def cutOff : List UInt8 := header 2 ++ (record { injectNs := 5 } ++ List.replicate 10 7)

theorem reader_exact_cursor_cutOff :
    ∃ r, PcapReader.fresh.open (some cutOff) = (r, true) ∧
      sinceRewind 0 (answers PcapReader.use r [.next, .next]) = 1 ∧
      (after PcapReader.use r [.next, .next]).eventsRead.toNat = 1 ∧
      (after PcapReader.use r [.next, .next, .rewind]).next.1 = some { injectNs := 5 } := by
  have hopen := open_header PcapReader.fresh 2 (record { injectNs := 5 } ++ List.replicate 10 7)
  have hone := (reader_exact_cursor _ _ _ hopen [.next, .next]).1
  have hagain := (reader_exact_cursor _ _ _ hopen [.next, .next, .rewind]).2.2.2.1
  refine ⟨_, hopen, ?_, hone.trans ?_, hagain.trans ?_⟩
  · decide +kernel
  · decide +kernel
  · decide +kernel

end UltrafastFeed.Pcap
