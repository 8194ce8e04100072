import Mathlib.Data.List.Nodup
import UltrafastFeed.Socket.Transfer
import UltrafastFeed.Umem.Conservation

/-!
# Socket — TxFrames

The life of a TX frame. `alloc_frame` takes it from the free list, the
caller hands it to `tx_burst`, the kernel sends it and posts its address
to the completion ring, `tx_complete` gives it back to the caller, and
`free_frame` puts it on the free list. The model runs the allocator of
`Umem` beside the TX and the completion ring of the socket; the fill ring
is never populated.

CALLER. It enqueues and frees only frames it holds, and keeps those that
`tx_burst` did not report as enqueued. KERNEL. It completes each
descriptor it has read once, in any order, with the address it read.

Nothing is counted twice and nothing disappears: `occ` adds up the places
a frame can be, and no step changes it.
-/

namespace UltrafastFeed.Socket.TxFrames

open Lib Lib.DescRing Lib.Run Umem

/-! ## The model -/

/-- What `alloc_frame` and `free_frame` did, newest first. -/
inductive AllocEvent where
  | alloc (offset : UInt64)
  | free (offset : UInt64)
  deriving DecidableEq, Repr

/-- `UINT64_MAX`. -/
def noFrame : UInt64 := 0xFFFFFFFFFFFFFFFF

/-- `Umem::alloc_frame` on `free_frames_`, with `back()` first. -/
def allocFrame : List UInt64 → UInt64 × List UInt64
  | [] => (noFrame, [])
  | offset :: rest => (offset, rest)

/-- `Umem::free_frame`. -/
def freeFrame (freeFrames : List UInt64) (offset : UInt64) : List UInt64 := offset :: freeFrames

structure State where
  freeFrames : List UInt64
  /-- Frames the caller holds and has not passed to a running call. -/
  hands : List UInt64
  tx : Outbound
  /-- Addresses the kernel has read from the TX ring and not completed. -/
  sending : List UInt64
  comp : Inbound UInt64 UInt64
  history : List AllocEvent

/-- `burst descs rest granted`: `tx_burst` on `descs`, with the frames
`rest` kept back. `kernelComplete j`: the kernel completes the `j`-th
frame it is sending. -/
inductive Action where
  | allocFrame
  | freeFrame (offset : UInt64)
  | burst (descs : List (UInt64 × UInt32)) (rest : List UInt64) (granted : Bool)
  | write
  | submit
  | kernelTake
  | kernelRelease (k : UInt32)
  | kernelComplete (j : Nat)
  | kernelPublish (k : UInt32)
  | complete (maxCount n : Nat)
  | copy
  | finish
  deriving DecidableEq, Repr

def init (cfg : UmemConfig) (i : Mapped) : State where
  freeFrames := (cfg.entries cfg.frameCount.toNat).reverse
  hands := []
  tx := .init i.tx i.txEntries
  sending := []
  comp := .init i.comp i.compEntries
  history := []

def step (z : Sizes) (s : State) : Action → Option State
  | .allocFrame =>
      let offset := (allocFrame s.freeFrames).1
      let rest := (allocFrame s.freeFrames).2
      if offset = noFrame then some { s with freeFrames := rest }
      else
        some { s with
          freeFrames := rest
          hands := offset :: s.hands
          history := .alloc offset :: s.history }
  | .freeFrame offset =>
      if offset ∈ s.hands then
        some { s with
          freeFrames := freeFrame s.freeFrames offset
          hands := s.hands.erase offset
          history := .free offset :: s.history }
      else none
  | .burst descs rest granted =>
      if (descs.map Prod.fst ++ rest).Perm s.hands then
        (txBurst z.tx s.tx (.burst descs granted)).map fun t => { s with tx := t, hands := rest }
      else none
  | .write => (txBurst z.tx s.tx .write).map fun t => { s with tx := t }
  | .submit =>
      match s.tx.call with
      | .writing _ reserved descs _ =>
          (txBurst z.tx s.tx .submit).map fun t =>
            { s with tx := t, hands := s.hands ++ (descs.drop reserved).map Prod.fst }
      | _ => none
  | .kernelTake =>
      (txBurst z.tx s.tx .take).map fun t =>
        { s with
          tx := t
          sending := s.sending ++ [(s.tx.ring.read z.tx s.tx.ring.cachedCons).addr] }
  | .kernelRelease k => (txBurst z.tx s.tx (.release k)).map fun t => { s with tx := t }
  | .kernelComplete j =>
      match s.sending[j]? with
      | some offset =>
          (txComplete z.comp s.comp (.post offset)).map fun c =>
            { s with comp := c, sending := s.sending.eraseIdx j }
      | none => none
  | .kernelPublish k =>
      (txComplete z.comp s.comp (.publish k)).map fun c => { s with comp := c }
  | .complete maxCount n =>
      (txComplete z.comp s.comp (.burst maxCount n)).map fun c => { s with comp := c }
  | .copy => (txComplete z.comp s.comp .copy).map fun c => { s with comp := c }
  | .finish =>
      match s.comp.call with
      | .copying _ _ out =>
          (txComplete z.comp s.comp .finish).map fun c =>
            { s with comp := c, hands := s.hands ++ out }
      | _ => none

/-! ## Where a frame is -/

/-- The frames of a running `tx_burst`, still the caller's. -/
def pending : Filling → List UInt64
  | .idle => []
  | .writing _ _ descs _ => descs.map Prod.fst

/-- In the caller's hands. -/
def State.held (s : State) : List UInt64 := s.hands ++ pending s.tx.call

/-- In the TX ring, submitted and not yet read, or in the kernel. -/
def State.inTx (z : Sizes) (s : State) : List UInt64 :=
  (s.tx.ring.between z.tx s.tx.ring.cachedCons s.tx.ring.producer).map XdpDesc.addr ++ s.sending

/-- In the completion ring: posted, and not given back by the caller. -/
def State.inComp (z : Sizes) (s : State) : List UInt64 :=
  s.comp.ring.between z.comp s.comp.ring.consumer s.comp.ring.cachedProd

/-- The frames that were freed and not handed out since, newest first. -/
def unclaimed (claimed : List UInt64) : List AllocEvent → List UInt64
  | [] => []
  | .alloc offset :: h => unclaimed (offset :: claimed) h
  | .free offset :: h =>
      if offset ∈ claimed then unclaimed claimed h else offset :: unclaimed claimed h

/-! ## The same places by what went in and out -/

/-- Enqueued, and not read by the kernel. -/
def enqueued (t : Outbound) : List UInt64 := ((sent t.calls).drop t.taken.length).map Prod.fst

/-- Posted, and not returned by `tx_complete`. -/
def completed (c : Inbound UInt64 UInt64) : List UInt64 := c.posted.drop c.returned.flatten.length

theorem between_eq_enqueued {z : RingSize} {i : UInt32} {t : Outbound} {w : List XdpDesc}
    {m : Marks} (hI : Outbound.Inv z i t w m) :
    (t.ring.between z t.ring.cachedCons t.ring.producer).map XdpDesc.addr = enqueued t := by
  have hsub := hI.tracks.submitted_le
  have hpk := hI.tracks.peeked_le
  have htaken : t.taken.length = m.peeked := by
    rw [hI.taken, List.length_take, Nat.min_eq_left (by omega)]
  rw [hI.tracks.cachedCons, hI.tracks.producer,
    hI.tracks.between_eq hI.tracks.released_le hpk hsub, hI.enqueued, enqueued, htaken,
    ← List.map_drop, List.map_map]
  rfl

theorem between_eq_completed {z : RingSize} {i : UInt32} {c : Inbound UInt64 UInt64} {m : Marks}
    (hI : Inbound.Inv z i id c m) :
    c.ring.between z c.ring.consumer c.ring.cachedProd = completed c := by
  have hsub := hI.tracks.submitted_le
  have hpk := hI.tracks.peeked_le
  have hrel := hI.tracks.released_le
  have hreturned : c.returned.flatten.length = m.released := by
    rw [hI.returned, List.length_map, List.length_take, Nat.min_eq_left (by omega)]
  rw [hI.tracks.consumer, hI.tracks.cachedProd, hI.written,
    hI.tracks.between_eq (Nat.le_refl _) (by omega) (Nat.le_refl _), List.take_length, completed,
    hreturned]

/-! ## What each call moves -/

section Moves

variable {z : RingSize} {i : UInt32} {o u : Outbound} {w : List XdpDesc} {m : Marks}
  {c d : Inbound UInt64 UInt64}

theorem drop_of_prefix {α : Type} {xs ys zs : List α} (h : xs ++ ys <+: zs) :
    zs.drop xs.length = ys ++ zs.drop (xs ++ ys).length := by
  obtain ⟨rest, rfl⟩ := h
  rw [List.drop_left, List.append_assoc, List.drop_left]

theorem taken_length_le (hI : Outbound.Inv z i o w m) : o.taken.length ≤ (sent o.calls).length := by
  have hle := hI.taken_prefix.length_le
  rwa [List.length_map] at hle

theorem enqueued_eq (t : Outbound) :
    enqueued t = (((sent t.calls).map txDesc).drop t.taken.length).map XdpDesc.addr := by
  rw [enqueued, ← List.map_drop, List.map_map]
  rfl

theorem burst_moves {descs : List (UInt64 × UInt32)} {granted : Bool}
    (h : txBurst z o (.burst descs granted) = some u) :
    pending o.call = [] ∧ pending u.call = descs.map Prod.fst ∧ enqueued u = enqueued o := by
  obtain ⟨hidle, ⟨rfl, rfl⟩ | ⟨-, rfl⟩ | rfl⟩ := outbound_burst h
  · refine ⟨by rw [hidle]; rfl, by rw [hidle]; rfl, ?_⟩
    rw [enqueued, sent_concat, List.take_nil, List.append_nil]
    rfl
  · exact ⟨by rw [hidle]; rfl, rfl, rfl⟩
  · exact ⟨by rw [hidle]; rfl, rfl, rfl⟩

theorem write_moves (h : txBurst z o .write = some u) :
    pending u.call = pending o.call ∧ enqueued u = enqueued o := by
  obtain ⟨idx, reserved, descs, k, e, hc, -, -, rfl⟩ := outbound_write h
  exact ⟨by rw [hc]; rfl, rfl⟩

theorem submit_moves {idx : UInt32} {reserved k : Nat} {descs : List (UInt64 × UInt32)}
    (hI : Outbound.Inv z i o w m) (hc : o.call = .writing idx reserved descs k)
    (h : txBurst z o .submit = some u) :
    pending o.call = descs.map Prod.fst ∧ pending u.call = [] ∧
      enqueued u = enqueued o ++ (descs.take reserved).map Prod.fst := by
  obtain ⟨idx', reserved', descs', hc', rfl⟩ := outbound_submit h
  rw [hc] at hc'
  cases hc'
  refine ⟨by rw [hc]; rfl, rfl, ?_⟩
  rw [enqueued, sent_concat, List.drop_append_of_le_length (taken_length_le hI), List.map_append]
  rfl

theorem take_moves (hI : Outbound.Inv z i o w m) (h : txBurst z o .take = some u) :
    pending u.call = pending o.call ∧
      enqueued o = (o.ring.read z o.ring.cachedCons).addr :: enqueued u := by
  obtain ⟨w', m', hI'⟩ := hI.step h
  obtain ⟨-, rfl⟩ := outbound_take h
  refine ⟨rfl, ?_⟩
  rw [enqueued_eq, enqueued_eq, drop_of_prefix hI'.taken_prefix, List.map_append]
  rfl

theorem release_moves {k : UInt32} (h : txBurst z o (.release k) = some u) :
    pending u.call = pending o.call ∧ enqueued u = enqueued o := by
  obtain ⟨-, rfl⟩ := outbound_release h
  exact ⟨rfl, rfl⟩

theorem post_moves {a : UInt64} (hI : Inbound.Inv z i id c m)
    (h : txComplete z c (.post a) = some d) : completed d = completed c ++ [a] := by
  have hle := hI.returned_prefix.length_le
  rw [List.map_id] at hle
  obtain ⟨-, rfl⟩ := inbound_post h
  rw [completed, List.drop_append_of_le_length hle]
  rfl

theorem finish_moves {idx : UInt32} {n : Nat} {out : List UInt64} (hI : Inbound.Inv z i id c m)
    (hc : c.call = .copying idx n out) (h : txComplete z c .finish = some d) :
    completed c = out ++ completed d := by
  obtain ⟨m', hI'⟩ := hI.step h
  obtain ⟨idx', n', out', hc', -, rfl⟩ := inbound_finish h
  rw [hc] at hc'
  cases hc'
  have hpre := hI'.returned_prefix
  rw [List.map_id, List.flatten_append, List.flatten_singleton] at hpre
  rw [completed, completed, drop_of_prefix hpre, List.flatten_append, List.flatten_singleton]

/-- The other steps on the completion ring move nothing. -/
theorem quiet_moves {a : InAction UInt64} (h : txComplete z c a = some d)
    (hpost : ∀ e, a ≠ .post e) (hfinish : a ≠ .finish) : completed d = completed c := by
  cases a with
  | burst nb n =>
      obtain ⟨-, -, -, rfl⟩ := inbound_burst h
      rfl
  | copy =>
      obtain ⟨idx, n, out, -, -, rfl⟩ := inbound_copy h
      rfl
  | finish => exact absurd rfl hfinish
  | post e => exact absurd rfl (hpost e)
  | publish k =>
      obtain ⟨-, rfl⟩ := inbound_publish h
      rfl

end Moves

/-! ## Conservation -/

/-- How often an offset occurs in all the places. -/
def State.occ (s : State) (a : UInt64) : Nat :=
  s.freeFrames.count a + s.hands.count a + (pending s.tx.call).count a + (enqueued s.tx).count a
    + s.sending.count a + (completed s.comp).count a

/-- The two rings stand somewhere in their streams. -/
structure RingsInv (z : Sizes) (i : Mapped) (s : State) : Prop where
  tx : ∃ w m, Outbound.Inv z.tx i.tx s.tx w m
  comp : ∃ m, Inbound.Inv z.comp i.comp id s.comp m

variable {z : Sizes} {i : Mapped} {cfg : UmemConfig} {s t : State}

theorem ringsInv_init (z : Sizes) (i : Mapped) (cfg : UmemConfig) : RingsInv z i (init cfg i) :=
  ⟨⟨_, _, outbound_init z.tx i.tx i.txEntries⟩, ⟨_, inbound_init z.comp i.comp id i.compEntries⟩⟩

theorem count_eraseIdx {as : List UInt64} {j : Nat} {offset : UInt64}
    (h : as[j]? = some offset) (a : UInt64) :
    as.count a = [offset].count a + (as.eraseIdx j).count a := by
  obtain ⟨hj, rfl⟩ := List.getElem?_eq_some_iff.mp h
  rw [← List.count_append]
  exact ((List.getElem_cons_eraseIdx_perm hj).count_eq a).symm

/-- What a step did to the free list, and how the history records it. -/
def StackStep (s t : State) : Prop :=
  (t.freeFrames = s.freeFrames ∧ t.history = s.history) ∨
    (∃ o, s.freeFrames = o :: t.freeFrames ∧ t.history = .alloc o :: s.history) ∨
    ∃ o, t.freeFrames = o :: s.freeFrames ∧ t.history = .free o :: s.history

structure Kept (z : Sizes) (i : Mapped) (s t : State) : Prop where
  rings : RingsInv z i t
  occ : ∀ o, t.occ o = s.occ o
  stack : StackStep s t

theorem RingsInv.kept_tx {a : OutAction} {u : Outbound} (hR : RingsInv z i s)
    (hu : txBurst z.tx s.tx a = some u) {hands sending : List UInt64}
    (hocc : ∀ o, hands.count o + (pending u.call).count o + (enqueued u).count o
        + sending.count o
      = s.hands.count o + (pending s.tx.call).count o + (enqueued s.tx).count o
        + s.sending.count o) :
    Kept z i s { s with tx := u, hands := hands, sending := sending } := by
  obtain ⟨⟨w, m, htx⟩, hcomp⟩ := hR
  refine ⟨⟨htx.step hu, hcomp⟩, fun o => ?_, .inl ⟨rfl, rfl⟩⟩
  have hsame := hocc o
  simp only [State.occ]
  omega

theorem RingsInv.kept_comp {a : InAction UInt64} {d : Inbound UInt64 UInt64}
    (hR : RingsInv z i s) (hd : txComplete z.comp s.comp a = some d)
    {hands sending : List UInt64}
    (hocc : ∀ o, hands.count o + sending.count o + (completed d).count o
      = s.hands.count o + s.sending.count o + (completed s.comp).count o) :
    Kept z i s { s with comp := d, hands := hands, sending := sending } := by
  obtain ⟨htx, ⟨m, hcomp⟩⟩ := hR
  refine ⟨⟨htx, hcomp.step hd⟩, fun o => ?_, .inl ⟨rfl, rfl⟩⟩
  have hsame := hocc o
  simp only [State.occ]
  omega

theorem step_allocFrame (hno : noFrame ∉ s.freeFrames) (h : step z s .allocFrame = some t) :
    s.freeFrames = [] ∧ t = s ∨
      ∃ offset rest, s.freeFrames = offset :: rest ∧
        t = { s with
          freeFrames := rest
          hands := offset :: s.hands
          history := .alloc offset :: s.history } := by
  simp only [step] at h
  cases hfree : s.freeFrames with
  | nil =>
      rw [hfree, allocFrame, if_pos rfl, ← hfree] at h
      cases h
      exact .inl ⟨rfl, rfl⟩
  | cons offset rest =>
      have hne : offset ≠ noFrame := by
        rintro rfl
        exact hno (by rw [hfree]; exact List.mem_cons_self)
      rw [hfree, allocFrame, if_neg hne] at h
      cases h
      exact .inr ⟨offset, rest, rfl, rfl⟩

/-- **No step loses or duplicates a frame**, as long as `UINT64_MAX` is
not on the free list. -/
theorem step_conserves {a : Action} (hR : RingsInv z i s) (hno : noFrame ∉ s.freeFrames)
    (h : step z s a = some t) : Kept z i s t := by
  obtain ⟨w, mt, htx⟩ := hR.tx
  obtain ⟨mc, hcomp⟩ := hR.comp
  cases a with
  | allocFrame =>
      rcases step_allocFrame hno h with ⟨-, rfl⟩ | ⟨offset, rest, hfree, rfl⟩
      · exact ⟨hR, fun _ => rfl, .inl ⟨rfl, rfl⟩⟩
      · refine ⟨⟨hR.tx, hR.comp⟩, fun o => ?_, .inr (.inl ⟨offset, hfree, rfl⟩)⟩
        simp only [State.occ, hfree, List.count_cons]
        omega
  | freeFrame offset =>
      obtain ⟨hmem, h⟩ := Option.ite_none_right_eq_some.mp h
      cases h
      refine ⟨⟨hR.tx, hR.comp⟩, fun o => ?_, .inr (.inr ⟨offset, rfl, rfl⟩)⟩
      have hcount := (List.perm_cons_erase hmem).count_eq o
      simp only [State.occ, freeFrame, List.count_cons] at hcount ⊢
      omega
  | burst descs rest granted =>
      obtain ⟨hperm, h⟩ := Option.ite_none_right_eq_some.mp h
      obtain ⟨u, hu, rfl⟩ := Option.map_eq_some_iff.mp h
      obtain ⟨hbefore, hafter, hsame⟩ := burst_moves hu
      apply hR.kept_tx hu
      intro o
      have hcount := hperm.count_eq o
      rw [List.count_append] at hcount
      rw [hbefore, hafter, hsame, List.count_nil]
      omega
  | write =>
      obtain ⟨u, hu, rfl⟩ := Option.map_eq_some_iff.mp h
      obtain ⟨hpend, henq⟩ := write_moves hu
      apply hR.kept_tx hu
      intro o
      rw [hpend, henq]
  | submit =>
      simp only [step] at h
      split at h
      · rename_i idx reserved descs k hc
        obtain ⟨u, hu, rfl⟩ := Option.map_eq_some_iff.mp h
        obtain ⟨hbefore, hafter, henq⟩ := submit_moves htx hc hu
        apply hR.kept_tx hu
        intro o
        -- what was reserved is enqueued, the rest goes back to the caller
        have hsplit : (descs.map Prod.fst).count o = ((descs.take reserved).map Prod.fst).count o
            + ((descs.drop reserved).map Prod.fst).count o := by
          rw [← List.count_append, ← List.map_append, List.take_append_drop]
        rw [hbefore, hafter, henq, List.count_append, List.count_append, List.count_nil]
        omega
      · cases h
  | kernelTake =>
      obtain ⟨u, hu, rfl⟩ := Option.map_eq_some_iff.mp h
      obtain ⟨hpend, henq⟩ := take_moves htx hu
      apply hR.kept_tx hu
      intro o
      rw [hpend, henq, List.count_append, List.count_singleton, List.count_cons]
      omega
  | kernelRelease k =>
      obtain ⟨u, hu, rfl⟩ := Option.map_eq_some_iff.mp h
      obtain ⟨hpend, henq⟩ := release_moves hu
      apply hR.kept_tx hu
      intro o
      rw [hpend, henq]
  | kernelComplete j =>
      simp only [step] at h
      split at h
      · rename_i offset hoff
        obtain ⟨d, hd, rfl⟩ := Option.map_eq_some_iff.mp h
        apply hR.kept_comp hd
        intro o
        have hcount := count_eraseIdx hoff o
        rw [post_moves hcomp hd, List.count_append]
        omega
      · cases h
  | kernelPublish k =>
      obtain ⟨d, hd, rfl⟩ := Option.map_eq_some_iff.mp h
      apply hR.kept_comp hd
      intro o
      rw [quiet_moves hd nofun nofun]
  | complete maxCount n =>
      obtain ⟨d, hd, rfl⟩ := Option.map_eq_some_iff.mp h
      apply hR.kept_comp hd
      intro o
      rw [quiet_moves hd nofun nofun]
  | copy =>
      obtain ⟨d, hd, rfl⟩ := Option.map_eq_some_iff.mp h
      apply hR.kept_comp hd
      intro o
      rw [quiet_moves hd nofun nofun]
  | finish =>
      simp only [step] at h
      split at h
      · rename_i idx n out hc
        obtain ⟨d, hd, rfl⟩ := Option.map_eq_some_iff.mp h
        apply hR.kept_comp hd
        intro o
        rw [finish_moves hcomp hc hd, List.count_append, List.count_append]
        omega
      · cases h

/-! ## The free list is a stack -/

theorem unclaimed_eq_filter (claimed : List UInt64) (h : List AllocEvent) :
    unclaimed claimed h = (unclaimed [] h).filter (· ∉ claimed) := by
  induction h generalizing claimed with
  | nil => rfl
  | cons e h ih =>
      cases e with
      | alloc offset =>
          rw [unclaimed, unclaimed, ih (offset :: claimed), ih [offset], List.filter_filter]
          apply List.filter_congr
          intro o _
          simp only [List.mem_cons, List.not_mem_nil, or_false, not_or, Bool.decide_and]
          exact Bool.and_comm _ _
      | free offset =>
          rw [unclaimed, unclaimed, if_neg List.not_mem_nil, List.filter_cons]
          by_cases hmem : offset ∈ claimed
          · rw [if_pos hmem, if_neg (by simpa using hmem), ih claimed]
          · rw [if_neg hmem, if_pos (by simpa using hmem), ih claimed]

/-- The frames freed and not handed out since lie on top of the free
list, and a step on a list without duplicates keeps them there. -/
theorem StackStep.unclaimed (h : StackStep s t) (hnodup : s.freeFrames.Nodup)
    (hs : TxFrames.unclaimed [] s.history <+: s.freeFrames) :
    TxFrames.unclaimed [] t.history <+: t.freeFrames := by
  rcases h with ⟨hfree, hhist⟩ | ⟨o, hfree, hhist⟩ | ⟨o, hfree, hhist⟩
  · rw [hfree, hhist]
    exact hs
  · rw [hhist, TxFrames.unclaimed, unclaimed_eq_filter]
    rw [hfree] at hs hnodup
    cases htop : TxFrames.unclaimed [] s.history with
    | nil => exact List.nil_prefix
    | cons top below =>
        rw [htop] at hs
        obtain ⟨rfl, hbelow⟩ := List.cons_prefix_cons.mp hs
        -- the frame handed out occurs nowhere below the top
        have hnot : ∀ o' ∈ below, o' ∉ [top] := by
          intro o' ho' heq
          rw [List.mem_singleton.mp heq] at ho'
          exact (List.nodup_cons.mp hnodup).1 (hbelow.subset ho')
        rw [List.filter_cons, if_neg (by simp), List.filter_eq_self.mpr (by simpa using hnot)]
        exact hbelow
  · rw [hfree, hhist, TxFrames.unclaimed, if_neg List.not_mem_nil]
    exact List.cons_prefix_cons.mpr ⟨rfl, hs⟩

/-! ## Every run -/

theorem entries_nodup {n : Nat} (hfit : cfg.OffsetsFit n) : (cfg.entries n).Nodup := by
  apply List.Nodup.of_map cfg.frameOf
  have hframes : (cfg.entries n).map cfg.frameOf = List.range n := by
    rw [UmemConfig.entries, List.map_map]
    conv_rhs => rw [← List.map_id (List.range n)]
    apply List.map_congr_left
    intro k hk
    exact frameOf_frameOffset hfit (List.mem_range.mp hk)
  rw [hframes]
  exact List.nodup_range

/-- `frame_size > 0`, and `frame_size * frame_count` fits 64 bits. -/
structure Geometry (cfg : UmemConfig) : Prop where
  frameSize_pos : 0 < cfg.frameSize.toNat
  fits : cfg.frameSize.toNat * cfg.frameCount.toNat < 2 ^ 64

theorem Geometry.offsetsFit (hg : Geometry cfg) : cfg.OffsetsFit cfg.frameCount.toNat :=
  offsetsFit_of_product hg.frameSize_pos hg.fits

/-- An offset is a multiple of `frame_size` below the end, with room for
its frame. -/
theorem Geometry.offset (hg : Geometry cfg) {o : UInt64}
    (ho : o ∈ cfg.entries cfg.frameCount.toNat) :
    ∃ k, o.toNat = k * cfg.frameSize.toNat ∧
      o.toNat + cfg.frameSize.toNat ≤ cfg.frameSize.toNat * cfg.frameCount.toNat := by
  obtain ⟨k, hk, rfl⟩ := List.mem_map.mp ho
  have hk : k < cfg.frameCount.toNat := List.mem_range.mp hk
  have hval := frameOffset_toNat hg.offsetsFit hk
  refine ⟨k, hval, ?_⟩
  calc (cfg.frameOffset (UInt64.ofNat k)).toNat + cfg.frameSize.toNat
      = cfg.frameSize.toNat * (k + 1) := by rw [hval, Nat.mul_comm, Nat.mul_succ]
    _ ≤ cfg.frameSize.toNat * cfg.frameCount.toNat := Nat.mul_le_mul_left _ hk

theorem Geometry.ne_noFrame (hg : Geometry cfg) {o : UInt64}
    (ho : o ∈ cfg.entries cfg.frameCount.toNat) : o ≠ noFrame := by
  rintro rfl
  obtain ⟨-, -, hend⟩ := hg.offset ho
  have hpos := hg.frameSize_pos
  have hfits := hg.fits
  have hmax : noFrame.toNat = 2 ^ 64 - 1 := rfl
  omega

structure Inv (cfg : UmemConfig) (z : Sizes) (i : Mapped) (s : State) : Prop where
  rings : RingsInv z i s
  conserved : ∀ o, s.occ o = (cfg.entries cfg.frameCount.toNat).count o
  stack : unclaimed [] s.history <+: s.freeFrames

theorem inv_init (cfg : UmemConfig) (z : Sizes) (i : Mapped) : Inv cfg z i (init cfg i) := by
  refine ⟨ringsInv_init z i cfg, fun o => ?_, List.nil_prefix⟩
  show (cfg.entries cfg.frameCount.toNat).reverse.count o + 0 + 0 + 0 + 0 + 0 = _
  exact List.count_reverse

theorem Inv.mem_entries (hI : Inv cfg z i s) {o : UInt64} (ho : o ∈ s.freeFrames) :
    o ∈ cfg.entries cfg.frameCount.toNat := by
  have hpos := List.count_pos_iff.mpr ho
  have hocc := hI.conserved o
  rw [State.occ] at hocc
  exact List.count_pos_iff.mp (by omega)

theorem Inv.occ_le_one (hI : Inv cfg z i s) (hg : Geometry cfg) (o : UInt64) : s.occ o ≤ 1 := by
  rw [hI.conserved o]
  exact List.nodup_iff_count_le_one.mp (entries_nodup hg.offsetsFit) o

theorem Inv.free_nodup (hI : Inv cfg z i s) (hg : Geometry cfg) : s.freeFrames.Nodup := by
  apply List.nodup_iff_count_le_one.mpr
  intro o
  have hocc := hI.occ_le_one hg o
  rw [State.occ] at hocc
  omega

theorem Inv.step {a : Action} (hI : Inv cfg z i s) (hg : Geometry cfg)
    (h : step z s a = some t) : Inv cfg z i t := by
  have hkept := step_conserves hI.rings (fun hmem => hg.ne_noFrame (hI.mem_entries hmem) rfl) h
  refine ⟨hkept.rings, fun o => ?_, hkept.stack.unclaimed (hI.free_nodup hg) hI.stack⟩
  rw [hkept.occ o, hI.conserved o]

theorem inv_reachable (hg : Geometry cfg) (h : Reachable (step z) (init cfg i) s) :
    Inv cfg z i s :=
  h.invariant (fun _ _ _ hI ht => hI.step hg ht) (inv_init cfg z i)

/-- The places as the rings' memory shows them. -/
theorem Inv.occ_eq (hI : Inv cfg z i s) (o : UInt64) :
    s.freeFrames.count o + s.held.count o + (s.inTx z).count o + (s.inComp z).count o
      = s.occ o := by
  obtain ⟨⟨w, mt, htx⟩, ⟨mc, hcomp⟩⟩ := hI.rings
  rw [State.held, State.inTx, State.inComp, between_eq_enqueued htx, between_eq_completed hcomp,
    List.count_append, List.count_append, State.occ]
  omega

/-- The frame on top of the free list is nowhere else. -/
theorem Inv.top_alone {o : UInt64} {rest : List UInt64} (hI : Inv cfg z i s) (hg : Geometry cfg)
    (hfree : s.freeFrames = o :: rest) :
    o ∉ rest ∧ o ∉ s.held ∧ o ∉ s.inTx z ∧ o ∉ s.inComp z := by
  have hocc := hI.occ_le_one hg o
  rw [← hI.occ_eq, hfree, List.count_cons_self] at hocc
  simp only [← List.count_eq_zero]
  omega

/-- It is the last one freed and not handed out since. -/
theorem Inv.top_last {o last : UInt64} {rest : List UInt64} (hI : Inv cfg z i s)
    (hfree : s.freeFrames = o :: rest) (hlast : (unclaimed [] s.history).head? = some last) :
    o = last := by
  have hstack := hI.stack
  obtain ⟨below, hbelow⟩ := List.head?_eq_some_iff.mp hlast
  rw [hbelow, hfree] at hstack
  exact (List.cons_prefix_cons.mp hstack).1.symm

/-- **TX frames are conserved.** For every geometry in which
`frame_size > 0` and `frame_size * frame_count` fits, and in every state
that any run of `alloc_frame`, `tx_burst`, `tx_complete`, `free_frame`
and the kernel reaches: each frame offset is in exactly one of the free
list, the caller's hands, the TX ring or the kernel, and the completion
ring; `alloc_frame` returns `UINT64_MAX` exactly when the free list is
empty, and otherwise a multiple of `frame_size` inside the region that
nobody else holds, namely the last one freed that has not been handed out
since, if there is one. -/
theorem tx_frames_conserved (cfg : UmemConfig) (hpos : 0 < cfg.frameSize.toNat)
    (hfits : cfg.frameSize.toNat * cfg.frameCount.toNat < 2 ^ 64) (z : Sizes) (i : Mapped)
    {s : State} (h : Reachable (step z) (init cfg i) s) :
    (∀ k, k < cfg.frameCount.toNat →
      s.freeFrames.count (cfg.frameOffset (UInt64.ofNat k))
        + s.held.count (cfg.frameOffset (UInt64.ofNat k))
        + (s.inTx z).count (cfg.frameOffset (UInt64.ofNat k))
        + (s.inComp z).count (cfg.frameOffset (UInt64.ofNat k)) = 1) ∧
      ((allocFrame s.freeFrames).1 = noFrame ↔ s.freeFrames = []) ∧
      (s.freeFrames ≠ [] →
        (∃ k, (allocFrame s.freeFrames).1.toNat = k * cfg.frameSize.toNat) ∧
        (allocFrame s.freeFrames).1.toNat < cfg.frameSize.toNat * cfg.frameCount.toNat ∧
        (allocFrame s.freeFrames).1 ∉ (allocFrame s.freeFrames).2 ∧
        (allocFrame s.freeFrames).1 ∉ s.held ∧
        (allocFrame s.freeFrames).1 ∉ s.inTx z ∧
        (allocFrame s.freeFrames).1 ∉ s.inComp z ∧
        ∀ last, (unclaimed [] s.history).head? = some last →
          (allocFrame s.freeFrames).1 = last) := by
  have hg : Geometry cfg := ⟨hpos, hfits⟩
  have hI : Inv cfg z i s := inv_reachable hg h
  refine ⟨fun k hk => ?_, ?_, fun hne => ?_⟩
  · rw [hI.occ_eq, hI.conserved]
    exact List.count_eq_one_of_mem (entries_nodup hg.offsetsFit)
      (List.mem_map.mpr ⟨k, List.mem_range.mpr hk, rfl⟩)
  · cases hfree : s.freeFrames with
    | nil => exact ⟨fun _ => rfl, fun _ => rfl⟩
    | cons o rest =>
        have hmem := hI.mem_entries (by rw [hfree]; exact List.mem_cons_self)
        exact ⟨fun heq => absurd heq (hg.ne_noFrame hmem), nofun⟩
  · cases hfree : s.freeFrames with
    | nil => exact absurd hfree hne
    | cons o rest =>
        have hmem := hI.mem_entries (o := o) (by rw [hfree]; exact List.mem_cons_self)
        obtain ⟨k, hk, hend⟩ := hg.offset hmem
        obtain ⟨hrest, hheld, htx, hcomp⟩ := hI.top_alone hg hfree
        exact ⟨⟨k, hk⟩, Nat.lt_of_lt_of_le (Nat.lt_add_of_pos_right hpos) hend, hrest, hheld, htx,
          hcomp, fun last hlast => hI.top_last hfree hlast⟩

/-- Both frames are sent, the second is completed first and freed. -/
def sendTwoFreeOne : List Action :=
  [.allocFrame, .allocFrame, .burst [(0, 42), (4096, 43)] [] true, .write, .write, .submit,
    .kernelTake, .kernelTake, .kernelRelease 2, .kernelComplete 1, .kernelPublish 1,
    .complete 16 1, .copy, .finish, .freeFrame 4096]

theorem sendTwoFreeOne_enabled :
    (run (step twoSlots) (init twoFrames aboutToWrap) sendTwoFreeOne).isSome := by
  decide +kernel

theorem tx_frames_conserved_sendTwoFreeOne :
    ∃ s, Reachable (step twoSlots) (init twoFrames aboutToWrap) s ∧
      s.sending = [0] ∧ s.freeFrames = [4096] ∧ (unclaimed [] s.history).head? = some 4096 ∧
      s.freeFrames.count 0 + s.held.count 0 + (s.inTx twoSlots).count 0
        + (s.inComp twoSlots).count 0 = 1 := by
  have hreach : Reachable (step twoSlots) (init twoFrames aboutToWrap) _ :=
    ⟨sendTwoFreeOne, (Option.some_get sendTwoFreeOne_enabled).symm⟩
  refine ⟨_, hreach, ?_, ?_, ?_,
    (tx_frames_conserved twoFrames (by decide) (by decide) twoSlots aboutToWrap hreach).1 0
      (by decide)⟩
  · clear hreach
    decide +kernel
  · clear hreach
    decide +kernel
  · clear hreach
    decide +kernel

end UltrafastFeed.Socket.TxFrames
