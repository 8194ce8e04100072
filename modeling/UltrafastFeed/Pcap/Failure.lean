import UltrafastFeed.Pcap.RoundTrip

/-!
# Pcap — Failure

`write_event` returns false at the first `fwrite` that fails and "does
NOT close the file". It does not take back the bytes that the call had
already put into the file either, so the next record starts wherever the
failed one stopped, and the reader, which steps by whole records, decodes
across the seam.

Whether that happens is a matter of the outcomes alone, not of the event
contents: a failed call is harmless when it left no byte behind, or when
no later call succeeds. `NoSuccessAfterPartial` says this, and it is
exactly the condition for every choice of events to be read back.
-/

namespace UltrafastFeed.Pcap

open Lib.Endian Lib.ByteFile

/-! ## The property and the condition -/

/-- The events whose `write_event` returned true, given the results. -/
def returnedTrue (cs : List Call) (oks : List Bool) : List FeedEvent :=
  ((cs.zip oks).filter Prod.snd).map fun p => p.1.ev

/-- A reader opened on the closed capture drains exactly the events whose
`write_event` returned true. -/
def ReadsSuccesses (cs : List Call) (r₀ : PcapReader) : Prop :=
  ∃ r, r₀.open (some (closedWriter cs).file.bytes) = (r, true) ∧
    Drains r ((returnedTrue cs (newWriter.writeAll cs).2).map stored)

/-- The calls that write the events `evs` under the outcomes `os`. -/
def callsOf (evs : List FeedEvent) (os : List (Nat → Outcome)) : List Call :=
  List.zipWith Call.mk evs os

/-- From file size `pos` on, no call succeeds after a call that failed
with at least one byte written; `damaged` says whether there was one. -/
def NoSuccessAfterPartial : Nat → Bool → List (Nat → Outcome) → Prop
  | _, _, [] => True
  | pos, damaged, o :: os =>
      ((callEffect pos o).2 = true → damaged = false) ∧
        NoSuccessAfterPartial (pos + (callEffect pos o).1)
          (damaged || (!(callEffect pos o).2 && (callEffect pos o).1 != 0)) os

section Step

variable {pos : Nat} {o : Nat → Outcome} {os : List (Nat → Outcome)} {d : Bool}

theorem clean_success (hok : (callEffect pos o).2 = true) :
    NoSuccessAfterPartial pos false (o :: os)
      ↔ NoSuccessAfterPartial (pos + (callEffect pos o).1) false os := by
  simp [NoSuccessAfterPartial, hok]

theorem clean_untouched (hno : ¬ (callEffect pos o).2 = true)
    (hz : (callEffect pos o).1 = 0) :
    NoSuccessAfterPartial pos d (o :: os) ↔ NoSuccessAfterPartial pos d os := by
  simp [NoSuccessAfterPartial, hno, hz]

theorem clean_torn (hno : ¬ (callEffect pos o).2 = true)
    (hz : (callEffect pos o).1 ≠ 0) :
    NoSuccessAfterPartial pos d (o :: os)
      ↔ NoSuccessAfterPartial (pos + (callEffect pos o).1) true os := by
  have hbit : ((callEffect pos o).1 != 0) = true := bne_iff_ne.mpr hz
  simp [NoSuccessAfterPartial, hno, hbit]

theorem clean_afterTorn :
    NoSuccessAfterPartial pos true (o :: os)
      ↔ ¬ (callEffect pos o).2 = true
        ∧ NoSuccessAfterPartial (pos + (callEffect pos o).1) true os := by
  simp [NoSuccessAfterPartial]

theorem successes_callsOf (ev : FeedEvent) (evs : List FeedEvent) :
    successes pos (callsOf (ev :: evs) (o :: os))
      = if (callEffect pos o).2 = true
        then ev :: successes (pos + (callEffect pos o).1) (callsOf evs os)
        else successes (pos + (callEffect pos o).1) (callsOf evs os) := rfl

theorem body_callsOf (ev : FeedEvent) (evs : List FeedEvent) :
    body pos (callsOf (ev :: evs) (o :: os))
      = (record ev).take (callEffect pos o).1
        ++ body (pos + (callEffect pos o).1) (callsOf evs os) := rfl

end Step

theorem returnedTrue_results (pos : Nat) (cs : List Call) :
    returnedTrue cs (results pos cs) = successes pos cs := by
  induction cs generalizing pos with
  | nil => rfl
  | cons c cs ih =>
      have hrest := ih (pos + (callEffect pos c.o).1)
      rw [returnedTrue] at hrest ⊢
      rw [results, successes, List.zip_cons_cons]
      by_cases hok : (callEffect pos c.o).2 = true
      · rw [List.filter_cons_of_pos (by simpa using hok), List.map_cons, hrest, if_pos hok]
      · rw [List.filter_cons_of_neg (by simpa using hok), hrest, if_neg hok]

theorem readsSuccesses_iff (cs : List Call) (r₀ : PcapReader) :
    ReadsSuccesses cs r₀ ↔
      ∃ r, r₀.open (some (header (UInt64.ofNat (successes 24 cs).length) ++ body 24 cs))
          = (r, true) ∧ Drains r ((successes 24 cs).map stored) := by
  rw [ReadsSuccesses, newWriter_writeAll, closedWriter_bytes, returnedTrue_results]

/-! ## The condition is enough -/

/-- After a partial record nothing succeeds. -/
theorem successes_afterTorn {pos : Nat} {os : List (Nat → Outcome)}
    (evs : List FeedEvent) (h : NoSuccessAfterPartial pos true os) :
    successes pos (callsOf evs os) = [] := by
  induction os generalizing pos evs with
  | nil => simp [callsOf, successes]
  | cons o os ih =>
      cases evs with
      | nil => rfl
      | cons ev evs =>
          obtain ⟨hno, hrest⟩ := clean_afterTorn.mp h
          rw [successes_callsOf, if_neg hno]
          exact ih evs hrest

/-- Up to the first partial record the file holds whole records. -/
theorem body_of_clean {pos : Nat} {os : List (Nat → Outcome)} (evs : List FeedEvent)
    (h : NoSuccessAfterPartial pos false os) :
    ∃ rest, body pos (callsOf evs os)
      = ((successes pos (callsOf evs os)).map record).flatten ++ rest := by
  induction os generalizing pos evs with
  | nil => exact ⟨[], by simp [callsOf, successes, body]⟩
  | cons o os ih =>
      cases evs with
      | nil => exact ⟨[], rfl⟩
      | cons ev evs =>
          rw [successes_callsOf, body_callsOf]
          by_cases hok : (callEffect pos o).2 = true
          · obtain ⟨hk, -⟩ := callEffect_true hok
            obtain ⟨rest, hrest⟩ := ih evs ((clean_success hok).mp h)
            refine ⟨rest, ?_⟩
            rw [if_pos hok, hrest, hk, List.take_of_length_le (by simp), List.map_cons,
              List.flatten_cons, List.append_assoc]
          · rw [if_neg hok]
            by_cases hz : (callEffect pos o).1 = 0
            · rw [hz, List.take_zero, List.nil_append]
              exact ih evs ((clean_untouched hok hz).mp h)
            · rw [successes_afterTorn evs ((clean_torn hok hz).mp h)]
              exact ⟨_, rfl⟩

theorem readsSuccesses_of_clean {os : List (Nat → Outcome)}
    (h : NoSuccessAfterPartial 24 false os) (evs : List FeedEvent) (r₀ : PcapReader) :
    ReadsSuccesses (callsOf evs os) r₀ := by
  rw [readsSuccesses_iff]
  obtain ⟨rest, hbody⟩ := body_of_clean evs h
  have hn : (UInt64.ofNat (successes 24 (callsOf evs os)).length).toNat
      = (successes 24 (callsOf evs os)).length := by
    rw [UInt64.toNat_ofNat', Nat.mod_eq_of_lt (successes_lt 24 _)]
  obtain ⟨r, hopen, -, hdrain⟩ :=
    @reads_back r₀ (successes 24 (callsOf evs os)) rest _ (Nat.le_of_eq hn)
  rw [hn, List.take_length] at hdrain
  refine ⟨r, ?_, hdrain⟩
  rw [hbody, ← List.append_assoc]
  exact hopen

/-! ## The condition is necessary -/

/-- A drained event is the decoding of the 88 bytes at its place. -/
theorem drains_decode {bs : List UInt8} {p : Nat} {n k : UInt64} {es : List FeedEvent}
    (hp : p ≤ bs.length) (h : Drains ⟨some ⟨bs, p⟩, n, k⟩ es) {i : Nat} {e : FeedEvent}
    (hi : es[i]? = some e) : e = decode (bs.drop (p + 88 * i)) := by
  induction es generalizing p k i with
  | nil => cases hi
  | cons e' es ih =>
      cases h with
      | more hn hd =>
          by_cases hlt : k < n
          · by_cases hlen : p + 88 ≤ bs.length
            · rw [next_some hlt hlen] at hn
              cases hn
              cases i with
              | zero => cases hi; rfl
              | succ i =>
                  rw [ih hlen hd hi]
                  congr 2
                  omega
            · rw [next_short hlt hp (by omega)] at hn
              cases hn
          · rw [next_done (UInt64.not_lt.mp hlt)] at hn
            cases hn

/-- Events that show the seam: the first byte of a record is `1` when its
call fails and `2` when it succeeds. -/
def probe : Nat → List (Nat → Outcome) → List FeedEvent
  | _, [] => []
  | pos, o :: os =>
      { injectNs := if (callEffect pos o).2 then 2 else 1 }
        :: probe (pos + (callEffect pos o).1) os

theorem probe_length (pos : Nat) (os : List (Nat → Outcome)) :
    (probe pos os).length = os.length := by
  induction os generalizing pos with
  | nil => rfl
  | cons o os ih => simp [probe, ih]

theorem mem_successes_probe {pos : Nat} {os : List (Nat → Outcome)} {e : FeedEvent}
    (h : e ∈ successes pos (callsOf (probe pos os) os)) : e.injectNs = 2 := by
  induction os generalizing pos with
  | nil => cases h
  | cons o os ih =>
      rw [probe, successes_callsOf] at h
      by_cases hok : (callEffect pos o).2 = true
      · rw [if_pos hok, List.mem_cons] at h
        rcases h with rfl | h
        · rw [if_pos hok]
        · exact ih h
      · rw [if_neg hok] at h
        exact ih h

theorem success_of_not_clean {pos : Nat} {os : List (Nat → Outcome)}
    (h : ¬ NoSuccessAfterPartial pos true os) :
    0 < (successes pos (callsOf (probe pos os) os)).length := by
  induction os generalizing pos with
  | nil => exact absurd trivial h
  | cons o os ih =>
      rw [probe, successes_callsOf]
      by_cases hok : (callEffect pos o).2 = true
      · rw [if_pos hok, List.length_cons]
        omega
      · rw [if_neg hok]
        exact ih fun hclean => h (clean_afterTorn.mpr ⟨hok, hclean⟩)

theorem take_record_one {k : Nat} (hk : k ≠ 0) :
    ∃ bs, (record { injectNs := 1 }).take k = 1 :: bs := by
  obtain ⟨k, rfl⟩ := Nat.exists_eq_succ_of_ne_zero hk
  exact ⟨_, rfl⟩

/-- The seam: whole records, then the first byte of a failed one where
the next successful one is looked for. -/
theorem seam_of_not_clean {pos : Nat} {os : List (Nat → Outcome)}
    (h : ¬ NoSuccessAfterPartial pos false os) :
    ∃ as bs, body pos (callsOf (probe pos os) os) = as ++ 1 :: bs ∧
      ∃ m, as.length = 88 * m ∧
        m < (successes pos (callsOf (probe pos os) os)).length := by
  induction os generalizing pos with
  | nil => exact absurd trivial h
  | cons o os ih =>
      rw [probe, successes_callsOf, body_callsOf]
      by_cases hok : (callEffect pos o).2 = true
      · obtain ⟨hk, -⟩ := callEffect_true hok
        obtain ⟨as, bs, hbody, m, hm, hlt⟩ := ih (mt (clean_success hok).mpr h)
        refine ⟨_ ++ as, bs, by rw [hbody, ← List.append_assoc], m + 1, ?_, ?_⟩
        · rw [List.length_append, hk, List.take_of_length_le (by simp), record_length, hm]
          omega
        · rw [if_pos hok, List.length_cons]
          omega
      · rw [if_neg hok, if_neg hok]
        by_cases hz : (callEffect pos o).1 = 0
        · rw [hz, List.take_zero, List.nil_append]
          exact ih (mt (clean_untouched hok hz).mpr h)
        · obtain ⟨bs, hbs⟩ := take_record_one hz
          rw [hbs]
          exact ⟨[], _, rfl, 0, rfl, success_of_not_clean (mt (clean_torn hok hz).mpr h)⟩

/-- A record that starts with the byte `1` does not decode to the
timestamp `2`. -/
theorem decode_one_ne (bs : List UInt8) : (decode (1 :: bs)).injectNs ≠ 2 := by
  intro heq
  have htwo := congrArg UInt64.toNat heq
  simp only [decode, recordSizes, pieces, decodeFields, List.take_succ_cons, toU64, leNat,
    UInt64.toNat_ofNat'] at htwo
  simp only [UInt8.reduceToNat, UInt64.reduceToNat] at htwo
  omega

theorem clean_of_readsSuccesses {os : List (Nat → Outcome)} {r₀ : PcapReader}
    (h : ReadsSuccesses (callsOf (probe 24 os) os) r₀) :
    NoSuccessAfterPartial 24 false os := by
  by_contra hnot
  obtain ⟨as, bs, hbody, m, hm, hlt⟩ := seam_of_not_clean hnot
  obtain ⟨r, hopen, hdrain⟩ := (readsSuccesses_iff _ _).mp h
  rw [open_header] at hopen
  cases hopen
  -- the event drained at the seam is decoded from the failed record on
  have hget : ((successes 24 (callsOf (probe 24 os) os)).map stored)[m]?
      = some (stored (successes 24 (callsOf (probe 24 os) os))[m]) := by
    rw [List.getElem?_map, List.getElem?_eq_getElem hlt, Option.map_some]
  have hdec := drains_decode (by simp) hdrain hget
  rw [hbody, List.drop_append, header_length, List.drop_of_length_le (by simp),
    List.nil_append, Nat.add_sub_cancel_left, ← hm, List.drop_left] at hdec
  have hinj := mem_successes_probe (List.getElem_mem hlt)
  exact decode_one_ne bs (by rw [← hdec]; exact hinj)

/-! ## The exact condition -/

/-- **When a failed `write_event` does no damage.** For every sequence of
outcomes: every choice of events is read back as the events whose call
returned true if and only if no call succeeds after a call that failed
with at least one byte written. -/
theorem failed_writes_harmless_iff (os : List (Nat → Outcome)) :
    (∀ (evs : List FeedEvent) (r₀ : PcapReader), evs.length = os.length →
        ReadsSuccesses (callsOf evs os) r₀)
      ↔ NoSuccessAfterPartial 24 false os := by
  constructor
  · intro h
    exact clean_of_readsSuccesses (h _ .fresh (probe_length 24 os))
  · intro h evs r₀ _
    exact readsSuccesses_of_clean h evs r₀

/-- The first call writes `inject_ns` and fails in its second `fwrite`;
the second call succeeds. The file then holds one event that nobody
wrote. -/
def seamOutcomes : List (Nat → Outcome) :=
  [fun i => if i = 0 then .full else .short 0, fun _ => .full]

theorem failed_write_damages :
    ¬ ReadsSuccesses (callsOf [{ injectNs := 1 }, { injectNs := 2 }] seamOutcomes)
        .fresh := by
  intro h
  have hclean : NoSuccessAfterPartial 24 false seamOutcomes := clean_of_readsSuccesses h
  have hno := hclean.2.1 (by decide)
  revert hno
  decide

end UltrafastFeed.Pcap
