import UltrafastFeed.Pcap.Copy

/-!
# Pcap — Crash

A crash leaves a prefix of the writer's byte stores. Until the count
patch starts, the header declares zero events, so a reader refuses the
file or reads nothing. Inside the patch the count field holds the first
bytes of the little-endian count followed by the zeros written at the
start: a TORN count, which is never more than the count itself, so never
more than the records that are there.
-/

namespace UltrafastFeed.Pcap

open Lib.Endian Lib.ByteFile

/-! ## A torn count field -/

/-- The count field after the first `j` bytes of the patch. -/
def tornCount (n : UInt64) (j : Nat) : List UInt8 :=
  (u64Bytes n).take j ++ List.replicate (8 - j) 0

theorem tornCount_length (n : UInt64) (j : Nat) : (tornCount n j).length = 8 := by
  rw [tornCount, List.length_append, List.length_take, u64Bytes_length,
    List.length_replicate]
  omega

theorem leNat_tornCount (n : UInt64) (j : Nat) :
    leNat (tornCount n j) = n.toNat % 256 ^ j := by
  rw [tornCount, u64Bytes]
  by_cases hj : j ≤ 8
  · exact leNat_torn hj _ _
  · -- past the last byte the field is whole
    have hpow : 256 ^ 8 ≤ 256 ^ j := Nat.pow_le_pow_right (by decide) (by omega)
    rw [List.take_of_length_le (by rw [leBytes_length]; omega),
      show 8 - j = 0 from by omega, List.replicate_zero, List.append_nil,
      leNat_leBytes_of_lt n.toNat_lt, Nat.mod_eq_of_lt (Nat.lt_of_lt_of_le n.toNat_lt hpow)]

/-- A torn count field reads as the low bytes of the count. -/
theorem tornCount_eq (n : UInt64) (j : Nat) :
    ∃ m : UInt64, tornCount n j = u64Bytes m ∧ m.toNat = n.toNat % 256 ^ j := by
  have hlen := tornCount_length n j
  refine ⟨toU64 (tornCount n j), ?_, (toNat_toU64 hlen).trans (leNat_tornCount n j)⟩
  have hbytes := leBytes_leNat (tornCount n j)
  rw [hlen] at hbytes
  rw [u64Bytes, toNat_toU64 hlen, hbytes]

/-- The header while its zero count is being patched. -/
theorem replay_tornCount (n : UInt64) (j : Nat) (bs : List UInt8) :
    replay (header 0 ++ bs) ((stores kCountOffset (u64Bytes n)).take j)
      = headerStart ++ tornCount n j ++ bs := by
  have hlen : ((u64Bytes n).take j).length = min j 8 := by simp
  have hzero : u64Bytes 0 = List.replicate (min j 8) 0 ++ List.replicate (8 - j) 0 := by
    rw [List.replicate_append_replicate, show min j 8 + (8 - j) = 8 from by omega]
    rfl
  rw [stores_take, header_eq, hzero, ← headerStart_length, tornCount,
    show headerStart ++ (List.replicate (min j 8) 0 ++ List.replicate (8 - j) 0) ++ bs
      = headerStart ++ List.replicate (min j 8) 0 ++ (List.replicate (8 - j) 0 ++ bs)
      from by simp only [List.append_assoc]]
  rw [replay_stores_inside _ _ _ _ (by rw [hlen, List.length_replicate])]
  simp

/-! ## Every crash point -/

/-- Before the count patch: a prefix of the header and the records. -/
theorem crash_before_patch {cs : List Call} {k : Nat}
    (hk : k ≤ (header 0 ++ body 24 cs).length) :
    (closedWriter cs).file.crash k = (header 0 ++ body 24 cs).take k := by
  have hend := replay_stores_end [] ((header 0 ++ body 24 cs).take k)
  rw [List.length_nil, List.nil_append] at hend
  rw [OutFile.crash, closedWriter_journal,
    List.take_append_of_le_length (by rw [stores_length]; exact hk), stores_take, hend]

/-- Inside the count patch, or after it. -/
theorem crash_in_patch {cs : List Call} {k : Nat}
    (hk : (header 0 ++ body 24 cs).length ≤ k) :
    (closedWriter cs).file.crash k =
      headerStart
        ++ tornCount (UInt64.ofNat (successes 24 cs).length)
            (k - (header 0 ++ body 24 cs).length)
        ++ body 24 cs := by
  have hend := replay_stores_end [] (header 0 ++ body 24 cs)
  rw [List.length_nil, List.nil_append] at hend
  rw [OutFile.crash, closedWriter_journal, List.take_append, stores_length,
    List.take_of_length_le (by rw [stores_length]; exact hk), replay_append, hend,
    replay_tornCount]

/-- A header that declares nothing drains to nothing. -/
theorem drains_nothing (r₀ : PcapReader) (bs : List UInt8) :
    ∃ r, r₀.open (some (header 0 ++ bs)) = (r, true) ∧ Drains r [] :=
  ⟨_, open_header r₀ 0 bs, .done (next_done (UInt64.le_refl _))⟩

/-- **Crash consistency.** Whatever byte store the writer stops after, a
reader refuses the file or drains a prefix of the events written. -/
theorem crash_reads_prefix (cs : List Call) (k : Nat) (r₀ : PcapReader)
    (hall : ∀ ok ∈ (newWriter.writeAll cs).2, ok = true) :
    let file := (closedWriter cs).file.crash k
    (r₀.open (some file)).2 = false ∨
      ∃ r es, r₀.open (some file) = (r, true) ∧ Drains r es ∧
        es <+: cs.map fun c => stored c.ev := by
  rw [newWriter_writeAll] at hall
  obtain ⟨hs, hb⟩ := all_succeed hall
  dsimp only
  rcases Nat.lt_or_ge k (header 0 ++ body 24 cs).length with hlt | hge
  · rw [crash_before_patch (Nat.le_of_lt hlt)]
    by_cases hk : k < 24
    · left
      rw [open_short (by rw [List.length_take]; omega)]
    · right
      have hfile : (header 0 ++ body 24 cs).take k
          = header 0 ++ (body 24 cs).take (k - 24) := by
        rw [List.take_append, header_length,
          List.take_of_length_le (by rw [header_length]; omega)]
      obtain ⟨r, hopen, hdrain⟩ := drains_nothing r₀ ((body 24 cs).take (k - 24))
      rw [hfile]
      exact ⟨r, [], hopen, hdrain, List.nil_prefix⟩
  · right
    obtain ⟨m, hm, hmod⟩ := tornCount_eq (UInt64.ofNat (successes 24 cs).length)
      (k - (header 0 ++ body 24 cs).length)
    have hle := Nat.le_trans (Nat.le_of_eq hmod) (Nat.mod_le _ _)
    have hn : (UInt64.ofNat (successes 24 cs).length).toNat = (cs.map Call.ev).length := by
      rw [UInt64.toNat_ofNat', Nat.mod_eq_of_lt (successes_lt 24 cs), hs]
    rw [hn] at hle
    obtain ⟨r, hopen, -, hdrain⟩ := @reads_back r₀ (cs.map Call.ev) [] m hle
    rw [crash_in_patch hge, hm, ← header_eq, hb]
    rw [List.append_nil] at hopen
    refine ⟨r, _, hopen, hdrain, ?_⟩
    rw [List.map_take, List.map_map]
    exact List.take_prefix _ _

/-- A crash after the first of the eight count bytes: the file opens, and
both events are read. -/
theorem crash_reads_prefix_firstCountByte :
    let file := (closedWriter twoEvents).file.crash 201
    ∃ r es, PcapReader.fresh.open (some file) = (r, true) ∧ Drains r es ∧
      (es <+: twoEvents.map fun c => stored c.ev) ∧
      es.map FeedEvent.injectNs = [0x0102030405060708, 0] := by
  have hopens : (PcapReader.fresh.open (some ((closedWriter twoEvents).file.crash 201))).2
      = true := by
    decide +kernel
  have hevents : (events ((closedWriter twoEvents).file.crash 201)).map FeedEvent.injectNs
      = [0x0102030405060708, 0] := by
    decide +kernel
  rcases crash_reads_prefix twoEvents 201 PcapReader.fresh (by decide) with
    hrefused | ⟨r, es, hopen, hdrain, hprefix⟩
  · rw [hopens] at hrefused
    cases hrefused
  · refine ⟨r, es, hopen, hdrain, hprefix, ?_⟩
    rw [hdrain.unique (drains_events hopen)]
    exact hevents

end UltrafastFeed.Pcap
