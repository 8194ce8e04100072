import UltrafastFeed.Lib.Run
import UltrafastFeed.Socket.Model

/-!
# Socket — Transfer

Each ring carries a stream, and each end of it moves through the stream
in order. `Inbound.Inv` and `Outbound.Inv` say where a call stands in the
stream while it is inside its copy loop: which stretch it has peeked at
or reserved, how much of it is copied, and that the index it started from
is the counter of the stretch's first position. What the calls returned
is then the stream up to the released position, and what the kernel took
is the stream up to where it has read.
-/

namespace UltrafastFeed.Socket

open Lib Lib.DescRing Lib.Run

/-! ## Inversion -/

section Inversion

variable {E O : Type} {z : RingSize} {copyOut : E → O} {s t : Inbound E O}

theorem inbound_burst {nb n : Nat} (h : s.step z copyOut (.burst nb n) = some t) :
    s.call = .idle ∧ n ≤ nb % 2 ^ 32 ∧ n ≤ s.ring.available.toNat ∧
      t = { s with
        ring := s.ring.peek (UInt32.ofNat n)
        call := .copying (if 0 < n then s.ring.cachedCons else 0) n [] } := by
  simp only [Inbound.step] at h
  split at h
  · rename_i hcall
    split at h
    · rename_i hn
      cases h
      exact ⟨hcall, hn.1, hn.2, rfl⟩
    · cases h
  · cases h

theorem inbound_copy (h : s.step z copyOut .copy = some t) :
    ∃ idx n out, s.call = .copying idx n out ∧ out.length < n ∧
      t = { s with
        call := .copying idx n
          (out ++ [copyOut (s.ring.read z (idx + UInt32.ofNat out.length))]) } := by
  simp only [Inbound.step] at h
  split at h
  · rename_i idx n out hcall
    split at h
    · rename_i hlt
      cases h
      exact ⟨idx, n, out, hcall, hlt, rfl⟩
    · cases h
  · cases h

theorem inbound_finish (h : s.step z copyOut .finish = some t) :
    ∃ idx n out, s.call = .copying idx n out ∧ out.length = n ∧
      t = { s with
        ring := if 0 < n then s.ring.release (UInt32.ofNat n) else s.ring
        call := .idle
        returned := s.returned ++ [out] } := by
  simp only [Inbound.step] at h
  split at h
  · rename_i idx n out hcall
    split at h
    · rename_i hlen
      cases h
      exact ⟨idx, n, out, hcall, hlen, rfl⟩
    · cases h
  · cases h

theorem inbound_post {e : E} (h : s.step z copyOut (.post e) = some t) :
    0 < s.ring.free z ∧
      t = { s with
        ring := (s.ring.reserve 1).write z s.ring.cachedProd e
        posted := s.posted ++ [e] } := by
  simp only [Inbound.step] at h
  split at h
  · rename_i hfree
    cases h
    exact ⟨hfree, rfl⟩
  · cases h

theorem inbound_publish {k : UInt32} (h : s.step z copyOut (.publish k) = some t) :
    k ≤ s.ring.cachedProd - s.ring.producer ∧ t = { s with ring := s.ring.submit k } := by
  simp only [Inbound.step] at h
  split at h
  · rename_i hk
    cases h
    exact ⟨hk, rfl⟩
  · cases h

variable {o u : Outbound}

theorem outbound_burst {descs : List (UInt64 × UInt32)} {granted : Bool}
    (h : txBurst z o (.burst descs granted) = some u) :
    o.call = .idle ∧
      ((descs = [] ∧ u = { o with calls := o.calls ++ [([], 0)] }) ∨
        (UInt32.ofNat descs.length ≤ o.ring.free z ∧
          u = { o with
            ring := o.ring.reserve (UInt32.ofNat descs.length)
            call := .writing o.ring.cachedProd (UInt32.ofNat descs.length).toNat descs 0 }) ∨
        u = { o with call := .writing 0 0 descs 0 }) := by
  simp only [txBurst] at h
  split at h
  · rename_i hcall
    refine ⟨hcall, ?_⟩
    split at h
    · rename_i hnil
      cases h
      exact .inl ⟨hnil, rfl⟩
    · split at h
      · split at h
        · rename_i hfree
          cases h
          exact .inr (.inl ⟨hfree, rfl⟩)
        · cases h
      · cases h
        exact .inr (.inr rfl)
  · cases h

theorem outbound_write (h : txBurst z o .write = some u) :
    ∃ idx reserved descs i d, o.call = .writing idx reserved descs i ∧ i < reserved ∧
      descs[i]? = some d ∧
      u = { o with
        ring := o.ring.write z (idx + UInt32.ofNat i) (txDesc d)
        call := .writing idx reserved descs (i + 1) } := by
  simp only [txBurst] at h
  split at h
  · rename_i idx reserved descs i hcall
    split at h
    · rename_i hlt
      split at h
      · rename_i d hd
        cases h
        exact ⟨idx, reserved, descs, i, d, hcall, hlt, hd, rfl⟩
      · cases h
    · cases h
  · cases h

theorem outbound_submit (h : txBurst z o .submit = some u) :
    ∃ idx reserved descs, o.call = .writing idx reserved descs reserved ∧
      u = { o with
        ring := if 0 < reserved then o.ring.submit (UInt32.ofNat reserved) else o.ring
        call := .idle
        calls := o.calls ++ [(descs, reserved)] } := by
  simp only [txBurst] at h
  split at h
  · rename_i idx reserved descs i hcall
    split at h
    · rename_i hi
      cases h
      subst hi
      exact ⟨idx, i, descs, hcall, rfl⟩
    · cases h
  · cases h

theorem outbound_take (h : txBurst z o .take = some u) :
    0 < o.ring.available ∧
      u = { o with
        ring := o.ring.peek 1
        taken := o.taken ++ [o.ring.read z o.ring.cachedCons] } := by
  simp only [txBurst] at h
  split at h
  · rename_i hav
    cases h
    exact ⟨hav, rfl⟩
  · cases h

theorem outbound_release {k : UInt32} (h : txBurst z o (.release k) = some u) :
    k ≤ o.ring.cachedCons - o.ring.consumer ∧ u = { o with ring := o.ring.release k } := by
  simp only [txBurst] at h
  split at h
  · rename_i hk
    cases h
    exact ⟨hk, rfl⟩
  · cases h

end Inversion

/-! ## Draining -/

section Inbound

variable {E O : Type} {z : RingSize} {i : UInt32} {copyOut : E → O} {s t : Inbound E O}
  {m : Marks}

/-- Where a draining call stands: it has peeked at `n` entries from the
released position on. -/
def Draining.At (i : UInt32) (copyOut : E → O) (posted : List E) (m : Marks) :
    Draining O → Prop
  | .idle => m.peeked = m.released
  | .copying idx n out =>
      m.peeked = m.released + n ∧ out.length ≤ n ∧ (0 < n → idx = counter i m.released) ∧
        out = ((posted.drop m.released).take out.length).map copyOut

structure Inbound.Inv (z : RingSize) (i : UInt32) (copyOut : E → O) (s : Inbound E O)
    (m : Marks) : Prop where
  tracks : Tracks z i s.ring s.posted m
  written : m.reserved = s.posted.length
  returned : s.returned.flatten = (s.posted.take m.released).map copyOut
  call : s.call.At i copyOut s.posted m

theorem inbound_init (z : RingSize) (i : UInt32) (copyOut : E → O) (entries : UInt32 → E) :
    Inbound.Inv z i copyOut (Inbound.init i entries) ⟨0, 0, 0, 0⟩ :=
  ⟨tracks_fresh z i entries, rfl, rfl, rfl⟩

/-- A peeked number is the one that was asked for: it fits 32 bits. -/
theorem toNat_ofNat_of_le {n nb : Nat} (h : n ≤ nb % 2 ^ 32) : (UInt32.ofNat n).toNat = n := by
  have hlt : nb % 2 ^ 32 < 2 ^ 32 := Nat.mod_lt _ (by decide)
  rw [UInt32.toNat_ofNat', Nat.mod_eq_of_lt (by omega)]

/-- More written entries do not disturb a call. -/
theorem Draining.At.append {call : Draining O} {posted : List E} (h : call.At i copyOut posted m)
    (hpeeked : m.peeked ≤ posted.length) (e : E) : call.At i copyOut (posted ++ [e]) m := by
  cases call with
  | idle => exact h
  | copying idx n out =>
      obtain ⟨hp, hle, hidx, hout⟩ := h
      refine ⟨hp, hle, hidx, ?_⟩
      rw [List.drop_append_of_le_length (by omega), List.take_append_of_le_length]
      · exact hout
      · rw [List.length_drop]
        omega

theorem Inbound.Inv.burst {nb n : Nat} (hI : Inbound.Inv z i copyOut s m)
    (h : s.step z copyOut (.burst nb n) = some t) : ∃ m', Inbound.Inv z i copyOut t m' := by
  obtain ⟨hidle, hnb, hav, rfl⟩ := inbound_burst h
  have hn := toNat_ofNat_of_le hnb
  have hpeek := hI.tracks.peek (n := UInt32.ofNat n) (by
    rw [UInt32.le_iff_toNat_le, hn]
    exact hav)
  have hcall := hI.call
  rw [hidle] at hcall
  have hstart : m.peeked = m.released := hcall
  refine ⟨_, hpeek, hI.written, hI.returned, ?_, Nat.zero_le _, fun hpos => ?_, rfl⟩
  · show m.peeked + (UInt32.ofNat n).toNat = m.released + n
    rw [hn, hstart]
  · rw [if_pos hpos, hI.tracks.cachedCons, hstart]

/-- One round of the copy loop: the entry copied is the next of the
stream. -/
theorem Inbound.Inv.copy (hI : Inbound.Inv z i copyOut s m)
    (h : s.step z copyOut .copy = some t) : Inbound.Inv z i copyOut t m := by
  obtain ⟨idx, n, out, hc, hlt, rfl⟩ := inbound_copy h
  have hcall := hI.call
  rw [hc] at hcall
  obtain ⟨hp, hle, hidx, hout⟩ := hcall
  have hpos : m.released + out.length < s.posted.length := by
    have hpk := hI.tracks.peeked_le
    have hsub := hI.tracks.submitted_le
    omega
  have hread := hI.tracks.stored _ _ (Nat.le_add_right _ _) (List.getElem?_eq_getElem hpos)
  refine ⟨hI.tracks, hI.written, hI.returned, hp, ?_, hidx, ?_⟩
  · rw [List.length_append]
    exact hlt
  · have hdrop : out.length < (s.posted.drop m.released).length := by
      rw [List.length_drop]
      omega
    rw [hidx (by omega), counter_add_ofNat, hread, List.length_append, List.length_singleton,
      ← List.take_concat_get hdrop, List.concat_eq_append, List.map_append, ← hout,
      List.getElem_drop]
    rfl

theorem Inbound.Inv.finish (hI : Inbound.Inv z i copyOut s m)
    (h : s.step z copyOut .finish = some t) : ∃ m', Inbound.Inv z i copyOut t m' := by
  obtain ⟨idx, n, out, hc, hlen, rfl⟩ := inbound_finish h
  have hcall := hI.call
  rw [hc] at hcall
  obtain ⟨hp, -, -, hout⟩ := hcall
  have hreturned : (s.returned ++ [out]).flatten
      = (s.posted.take (m.released + n)).map copyOut := by
    rw [List.flatten_append, hI.returned, List.flatten_singleton, hout, hlen, List.take_add,
      List.map_append]
  by_cases hpos : 0 < n
  · have hn : (UInt32.ofNat n).toNat = n := by
      have hpk := hI.tracks.peeked_le
      have hsub := hI.tracks.submitted_le
      have hwr := hI.tracks.written_le
      exact hI.tracks.toNat_ofNat (by omega)
    have hrelease := hI.tracks.release (n := UInt32.ofNat n) (by rw [hn, hp])
    rw [if_pos hpos]
    refine ⟨_, hrelease, hI.written, ?_, ?_⟩
    · show (s.returned ++ [out]).flatten
        = (s.posted.take (m.released + (UInt32.ofNat n).toNat)).map copyOut
      rw [hn, hreturned]
    · show m.peeked = m.released + (UInt32.ofNat n).toNat
      rw [hn, hp]
  · -- nothing was peeked at, and nothing is released
    obtain rfl : n = 0 := by omega
    rw [if_neg hpos]
    exact ⟨m, hI.tracks, hI.written, hreturned, hp⟩

theorem Inbound.Inv.post {e : E} (hI : Inbound.Inv z i copyOut s m)
    (h : s.step z copyOut (.post e) = some t) : ∃ m', Inbound.Inv z i copyOut t m' := by
  obtain ⟨hfree, rfl⟩ := inbound_post h
  have hreserve := hI.tracks.reserve (n := 1) (by
    rw [UInt32.le_iff_toNat_le]
    exact UInt32.lt_iff_toNat_lt.mp hfree)
  have hwrite := hreserve.write e (by
    show s.posted.length < m.reserved + 1
    rw [hI.written]
    exact Nat.lt_succ_self _)
  rw [← hI.written, ← hI.tracks.cachedProd] at hwrite
  refine ⟨_, hwrite, ?_, ?_, ?_⟩
  · show m.reserved + 1 = (s.posted ++ [e]).length
    rw [hI.written, List.length_append]
    rfl
  · rw [List.take_append_of_le_length hI.tracks.released_le_written]
    exact hI.returned
  · exact hI.call.append (hI.tracks.peeked_le.trans hI.tracks.submitted_le) e

theorem Inbound.Inv.publish {k : UInt32} (hI : Inbound.Inv z i copyOut s m)
    (h : s.step z copyOut (.publish k) = some t) : ∃ m', Inbound.Inv z i copyOut t m' := by
  obtain ⟨hk, rfl⟩ := inbound_publish h
  have hk := UInt32.le_iff_toNat_le.mp hk
  rw [hI.tracks.unsubmitted_toNat, hI.written] at hk
  have hsub := hI.tracks.submitted_le
  have hsubmit := hI.tracks.submit (n := k) (by omega)
  exact ⟨_, hsubmit, hI.written, hI.returned, hI.call⟩

theorem Inbound.Inv.step {a : InAction E} (hI : Inbound.Inv z i copyOut s m)
    (h : s.step z copyOut a = some t) : ∃ m', Inbound.Inv z i copyOut t m' := by
  cases a with
  | burst nb n => exact hI.burst h
  | copy => exact ⟨m, hI.copy h⟩
  | finish => exact hI.finish h
  | post e => exact hI.post h
  | publish k => exact hI.publish h

end Inbound

/-! ## Filling -/

section Outbound

variable {z : RingSize} {i : UInt32} {s t : Outbound} {w : List XdpDesc} {m : Marks}

/-- What the finished calls enqueued: of each its first `k` frames, `k`
being what it returned. -/
def sent (calls : List (List (UInt64 × UInt32) × Nat)) : List (UInt64 × UInt32) :=
  calls.flatMap fun c => c.1.take c.2

theorem sent_concat (calls : List (List (UInt64 × UInt32) × Nat))
    (descs : List (UInt64 × UInt32)) (k : Nat) :
    sent (calls ++ [(descs, k)]) = sent calls ++ descs.take k := by
  rw [sent, List.flatMap_append, List.flatMap_singleton]
  rfl

/-- Where `tx_burst` stands: it has reserved slots from the submitted
position on, and the first `k` frames of the call are in them. -/
def Filling.At (i : UInt32) (w : List XdpDesc) (m : Marks) : Filling → Prop
  | .idle => m.reserved = m.submitted
  | .writing idx reserved descs k =>
      m.reserved = m.submitted + reserved ∧ k ≤ reserved ∧ reserved ≤ descs.length ∧
        (0 < reserved → idx = counter i m.submitted) ∧
        w = w.take m.submitted ++ (descs.take k).map txDesc

structure Outbound.Inv (z : RingSize) (i : UInt32) (s : Outbound) (w : List XdpDesc)
    (m : Marks) : Prop where
  tracks : Tracks z i s.ring w m
  enqueued : w.take m.submitted = (sent s.calls).map txDesc
  taken : s.taken = w.take m.peeked
  call : s.call.At i w m

theorem outbound_init (z : RingSize) (i : UInt32) (entries : UInt32 → XdpDesc) :
    Outbound.Inv z i (Outbound.init i entries) [] ⟨0, 0, 0, 0⟩ :=
  ⟨tracks_fresh z i entries, rfl, rfl, rfl⟩

/-- A call that starts finds nothing unsubmitted. -/
theorem Outbound.Inv.start (hI : Outbound.Inv z i s w m) (hidle : s.call = .idle) :
    m.reserved = m.submitted ∧ w = w.take m.submitted := by
  have hcall := hI.call
  rw [hidle] at hcall
  have hres : m.reserved = m.submitted := hcall
  have hw := hI.tracks.written_le
  exact ⟨hres, (List.take_of_length_le (by omega)).symm⟩

/-- Inside a call, what is written is what was submitted and the frames
of the call so far. -/
theorem Filling.At.length {idx : UInt32} {reserved k : Nat} {descs : List (UInt64 × UInt32)}
    (h : (Filling.writing idx reserved descs k).At i w m) (hsub : m.submitted ≤ w.length) :
    w.length = m.submitted + k := by
  obtain ⟨-, hk, hres, -, hw⟩ := h
  have hlen := congrArg List.length hw
  rw [List.length_append, List.length_take, List.length_map, List.length_take] at hlen
  omega

theorem Outbound.Inv.burst {descs : List (UInt64 × UInt32)} {granted : Bool}
    (hI : Outbound.Inv z i s w m) (h : txBurst z s (.burst descs granted) = some t) :
    ∃ m', Outbound.Inv z i t w m' := by
  obtain ⟨hidle, hcase⟩ := outbound_burst h
  obtain ⟨hres, hw⟩ := hI.start hidle
  -- nothing of the call is written yet
  have hnone : w = w.take m.submitted ++ (descs.take 0).map txDesc := by
    rw [List.take_zero, List.map_nil, List.append_nil]
    exact hw
  rcases hcase with ⟨-, rfl⟩ | ⟨hfree, rfl⟩ | rfl
  · refine ⟨m, hI.tracks, ?_, hI.taken, hI.call⟩
    rw [sent_concat, List.take_nil, List.append_nil]
    exact hI.enqueued
  · refine ⟨_, hI.tracks.reserve hfree, hI.enqueued, hI.taken, ?_, Nat.zero_le _, ?_, ?_, hnone⟩
    · show m.reserved + _ = m.submitted + _
      rw [hres]
    · rw [UInt32.toNat_ofNat']
      exact Nat.mod_le _ _
    · intro _
      show s.ring.cachedProd = counter i m.submitted
      rw [hI.tracks.cachedProd, hres]
  · refine ⟨m, hI.tracks, hI.enqueued, hI.taken, hres, Nat.zero_le _, Nat.zero_le _, ?_, hnone⟩
    intro hpos
    exact absurd hpos (Nat.lt_irrefl 0)

/-- One round of the write loop: the stream grows by the next frame of
the call. -/
theorem Outbound.Inv.write (hI : Outbound.Inv z i s w m) (h : txBurst z s .write = some t) :
    ∃ w', Outbound.Inv z i t w' m := by
  obtain ⟨idx, reserved, descs, k, d, hc, hlt, hd, rfl⟩ := outbound_write h
  have hsub := hI.tracks.submitted_le
  have hcall := hI.call
  rw [hc] at hcall
  have hlen := hcall.length hsub
  obtain ⟨hres, -, hle, hidx, hw⟩ := hcall
  have hwrite := hI.tracks.write (txDesc d) (by omega)
  rw [hlen, ← counter_add_ofNat, ← hidx (by omega)] at hwrite
  refine ⟨_, hwrite, ?_, ?_, hres, hlt, hle, hidx, ?_⟩
  · rw [List.take_append_of_le_length hsub]
    exact hI.enqueued
  · rw [List.take_append_of_le_length (hI.tracks.peeked_le.trans hsub)]
    exact hI.taken
  · obtain ⟨hk, rfl⟩ := List.getElem?_eq_some_iff.mp hd
    rw [List.take_append_of_le_length hsub, ← List.take_concat_get hk, List.concat_eq_append,
      List.map_append, ← List.append_assoc, ← hw]
    rfl

theorem Outbound.Inv.submit (hI : Outbound.Inv z i s w m) (h : txBurst z s .submit = some t) :
    ∃ m', Outbound.Inv z i t w m' := by
  obtain ⟨idx, reserved, descs, hc, rfl⟩ := outbound_submit h
  have hcall := hI.call
  rw [hc] at hcall
  have hlen := hcall.length hI.tracks.submitted_le
  obtain ⟨hres, -, hle, -, hw⟩ := hcall
  have hsent : w = (sent (s.calls ++ [(descs, reserved)])).map txDesc := by
    rw [sent_concat, List.map_append, ← hI.enqueued]
    exact hw
  by_cases hpos : 0 < reserved
  · have hn : (UInt32.ofNat reserved).toNat = reserved := by
      have hrel := hI.tracks.released_le
      have hpk := hI.tracks.peeked_le
      exact hI.tracks.toNat_ofNat (by omega)
    have hsubmit := hI.tracks.submit (n := UInt32.ofNat reserved) (by rw [hn, hlen])
    rw [if_pos hpos]
    refine ⟨_, hsubmit, ?_, hI.taken, ?_⟩
    · show w.take (m.submitted + (UInt32.ofNat reserved).toNat) = _
      rw [hn, ← hlen, List.take_length]
      exact hsent
    · show m.reserved = m.submitted + (UInt32.ofNat reserved).toNat
      rw [hn, hres]
  · obtain rfl : reserved = 0 := by omega
    rw [if_neg hpos]
    refine ⟨m, hI.tracks, ?_, hI.taken, hres⟩
    rw [List.take_of_length_le (by omega)]
    exact hsent

theorem Outbound.Inv.take (hI : Outbound.Inv z i s w m) (h : txBurst z s .take = some t) :
    ∃ m', Outbound.Inv z i t w m' := by
  obtain ⟨hav, rfl⟩ := outbound_take h
  have hpos := UInt32.lt_iff_toNat_lt.mp hav
  have hlt : m.peeked < w.length := by
    have hsub := hI.tracks.submitted_le
    rw [hI.tracks.available_toNat] at hpos
    exact Nat.lt_of_lt_of_le (Nat.lt_of_sub_pos hpos) hsub
  have hpeek := hI.tracks.peek (n := 1) (UInt32.le_iff_toNat_le.mpr hpos)
  have hread := hI.tracks.stored _ _ hI.tracks.released_le (List.getElem?_eq_getElem hlt)
  refine ⟨_, hpeek, hI.enqueued, ?_, hI.call⟩
  show s.taken ++ [s.ring.read z s.ring.cachedCons] = w.take (m.peeked + 1)
  rw [hI.tracks.cachedCons, hread, hI.taken, ← List.take_concat_get hlt, List.concat_eq_append]

theorem Outbound.Inv.release {k : UInt32} (hI : Outbound.Inv z i s w m)
    (h : txBurst z s (.release k) = some t) : ∃ m', Outbound.Inv z i t w m' := by
  obtain ⟨hk, rfl⟩ := outbound_release h
  have hk := UInt32.le_iff_toNat_le.mp hk
  rw [hI.tracks.unreleased_toNat] at hk
  have hrel := hI.tracks.released_le
  have hrelease := hI.tracks.release (n := k) (by omega)
  exact ⟨_, hrelease, hI.enqueued, hI.taken, hI.call⟩

theorem Outbound.Inv.step {a : OutAction} (hI : Outbound.Inv z i s w m)
    (h : txBurst z s a = some t) : ∃ w' m', Outbound.Inv z i t w' m' := by
  cases a with
  | burst descs granted => exact ⟨w, hI.burst h⟩
  | write =>
      obtain ⟨w', hI'⟩ := hI.write h
      exact ⟨w', m, hI'⟩
  | submit => exact ⟨w, hI.submit h⟩
  | take => exact ⟨w, hI.take h⟩
  | release k => exact ⟨w, hI.release h⟩

/-- What the kernel has read, of what was enqueued. -/
theorem Outbound.Inv.taken_prefix (hI : Outbound.Inv z i s w m) :
    s.taken <+: (sent s.calls).map txDesc := by
  rw [hI.taken, ← hI.enqueued]
  exact List.take_prefix_take_left hI.tracks.peeked_le

end Outbound

/-! ## The socket -/

/-- Each of the three rings stands somewhere in its stream. -/
structure Inv (z : Sizes) (i : Mapped) (s : State) : Prop where
  rx : ∃ m, Inbound.Inv z.rx i.rx rxDesc s.rx m
  tx : ∃ w m, Outbound.Inv z.tx i.tx s.tx w m
  comp : ∃ m, Inbound.Inv z.comp i.comp id s.comp m

variable {z : Sizes} {i : Mapped} {s t : State}

theorem inv_init (z : Sizes) (i : Mapped) : Inv z i (init i) :=
  ⟨⟨_, inbound_init z.rx i.rx rxDesc i.rxEntries⟩, ⟨_, _, outbound_init z.tx i.tx i.txEntries⟩,
    ⟨_, inbound_init z.comp i.comp id i.compEntries⟩⟩

theorem Inv.step {a : Action} (hI : Inv z i s) (h : step z s a = some t) : Inv z i t := by
  obtain ⟨⟨mr, hrx⟩, ⟨w, mt, htx⟩, ⟨mc, hcomp⟩⟩ := hI
  cases a with
  | rx a =>
      obtain ⟨r, hr, rfl⟩ := Option.map_eq_some_iff.mp h
      exact ⟨hrx.step hr, ⟨w, mt, htx⟩, ⟨mc, hcomp⟩⟩
  | tx a =>
      obtain ⟨u, hu, rfl⟩ := Option.map_eq_some_iff.mp h
      exact ⟨⟨mr, hrx⟩, htx.step hu, ⟨mc, hcomp⟩⟩
  | comp a =>
      obtain ⟨c, hc, rfl⟩ := Option.map_eq_some_iff.mp h
      exact ⟨⟨mr, hrx⟩, ⟨w, mt, htx⟩, hcomp.step hc⟩

theorem inv_reachable (h : Reachable (step z) (init i) s) : Inv z i s :=
  h.invariant (fun _ _ _ hI ht => hI.step ht) (inv_init z i)

/-- What draining calls returned, of what the kernel posted. -/
theorem Inbound.Inv.returned_prefix {E O : Type} {z : RingSize} {i : UInt32} {copyOut : E → O}
    {s : Inbound E O} {m : Marks} (hI : Inbound.Inv z i copyOut s m) :
    s.returned.flatten <+: s.posted.map copyOut := by
  rw [hI.returned]
  exact (List.take_prefix _ _).map copyOut

/-- **The socket transfers descriptors exactly.** For every power-of-two
depth of the rings, every initial value of their 32-bit counters, and
every interleaving of `rx_burst`, `tx_burst` and `tx_complete` calls of
any sizes with the kernel's steps: what `rx_burst` returned, call after
call, is a prefix of what the kernel posted, address, length and options;
the descriptors the kernel read from the TX ring are a prefix of the first
`k` frames of each `tx_burst` call, `k` being its return value; and what
`tx_complete` returned is a prefix of the kernel's completions. -/
theorem transfers_exactly (z : Sizes) (i : Mapped) {s : State}
    (h : Reachable (step z) (init i) s) :
    s.rx.returned.flatten.map (fun d => (d.addr, d.len, d.options))
        <+: s.rx.posted.map (fun d => (d.addr, d.len, d.options)) ∧
      s.tx.taken.map (fun d => (d.addr, d.len)) <+: s.tx.calls.flatMap (fun c => c.1.take c.2) ∧
      s.comp.returned.flatten <+: s.comp.posted := by
  obtain ⟨⟨mr, hrx⟩, ⟨w, mt, htx⟩, ⟨mc, hcomp⟩⟩ := inv_reachable h
  refine ⟨?_, ?_, ?_⟩
  · have hpre := hrx.returned_prefix.map fun d : Umem.RxDesc => (d.addr, d.len, d.options)
    rw [List.map_map] at hpre
    exact hpre
  · have hpre := htx.taken_prefix.map fun d : XdpDesc => (d.addr, d.len)
    rw [List.map_map, show (fun d : XdpDesc => (d.addr, d.len)) ∘ txDesc = id from rfl,
      List.map_id] at hpre
    exact hpre
  · have hpre := hcomp.returned_prefix
    rwa [List.map_id] at hpre

/-! Rings of two slots whose counters wrap in the middle of every burst. -/

def twoSlots : Sizes := ⟨⟨1, by decide⟩, ⟨1, by decide⟩, ⟨1, by decide⟩⟩

def aboutToWrap : Mapped :=
  ⟨0xFFFFFFFF, 0xFFFFFFFF, 0xFFFFFFFF, fun _ => ⟨0, 0, 0⟩, fun _ => ⟨0, 0, 0⟩, fun _ => 0⟩

def acrossTheWrap : List Action :=
  [.rx (.post ⟨4096, 60, 1⟩), .rx (.post ⟨8192, 61, 2⟩), .rx (.publish 2), .rx (.burst 64 2),
    .rx .copy, .tx (.burst [(0, 42), (4096, 43)] true), .tx .write, .rx .copy, .rx .finish,
    .tx .write, .tx .submit, .tx .take, .tx .take, .tx (.release 2), .comp (.post 4096),
    .comp (.publish 1), .comp (.burst 16 1), .comp .copy, .comp .finish]

theorem acrossTheWrap_enabled :
    (run (step twoSlots) (init aboutToWrap) acrossTheWrap).isSome := by
  decide +kernel

theorem transfers_exactly_acrossTheWrap :
    ∃ s, Reachable (step twoSlots) (init aboutToWrap) s ∧
      s.rx.returned.flatten.map (fun d => (d.addr, d.len, d.options))
        = [(4096, 60, 1), (8192, 61, 2)] ∧
      s.tx.taken.map (fun d => (d.addr, d.len)) = [(0, 42), (4096, 43)] ∧
      s.comp.returned.flatten = [4096] ∧
      s.rx.returned.flatten.map (fun d => (d.addr, d.len, d.options))
        <+: s.rx.posted.map (fun d => (d.addr, d.len, d.options)) ∧
      s.tx.taken.map (fun d => (d.addr, d.len)) <+: s.tx.calls.flatMap (fun c => c.1.take c.2) ∧
      s.comp.returned.flatten <+: s.comp.posted := by
  have hreach : Reachable (step twoSlots) (init aboutToWrap) _ :=
    ⟨acrossTheWrap, (Option.some_get acrossTheWrap_enabled).symm⟩
  refine ⟨_, hreach, ?_, ?_, ?_, transfers_exactly twoSlots aboutToWrap hreach⟩
  · clear hreach
    decide +kernel
  · clear hreach
    decide +kernel
  · clear hreach
    decide +kernel

end UltrafastFeed.Socket
