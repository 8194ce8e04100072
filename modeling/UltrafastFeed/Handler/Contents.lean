import Mathlib.Data.List.Forall2
import UltrafastFeed.Handler.Progress

/-!
# FeedHandler — what arrives is what is popped

`Accounting` relates the events to the frames the RX thread PARSED, byte
by byte, at whatever moment it read each byte. Here they are related to
what the kernel DELIVERED: the bytes of a frame at the moment it was
posted to the RX ring. From a single `start()` on, the kernel owns no
frame between its post and its release, so every frame is parsed as it
was posted, and the ring's contents are a function of the deliveries,
the timestamps of the batches and the refusals.

KERNEL. A posted frame leaves `kMaxPayload` bytes of its UMEM frame
unused (`Roomy`): the parser believes the UDP length field and may read
that far.
-/

namespace UltrafastFeed.Handler

open Lib Lib.Run Lib.Reads Umem Packet

variable {ι α : Type}

/-- A frame as the kernel posted it: its descriptor, and the memory then. -/
structure Arrival where
  desc : RxDesc
  mem : Nat → UInt8

def Arrival.packet (a : Arrival) : Packet := framePacket a.desc.addr a.desc.len

/-- What the frame is worth to a batch stamped `ts`. -/
def Arrival.event (a : Arrival) (ts : UInt64) : Option FeedEvent :=
  if HasUdp a.mem a.packet then some (eventOf a.mem ts a.packet) else none

/-- The arrival that a step is. -/
def arrival : Action ι → State ι α → Option Arrival
  | .kernel (.kernelPost _ d), t => some ⟨d, t.mem⟩
  | _, _ => none

def Roomy (d : RxDesc) : Prop :=
  d.addr.toNat % umemConfig.frameSize.toNat + d.len.toNat + kMaxPayload
    ≤ umemConfig.frameSize.toNat

instance (d : RxDesc) : Decidable (Roomy d) :=
  inferInstanceAs (Decidable (_ ≤ _))

theorem Roomy.frameOf {d : RxDesc} (h : Roomy d) {x : Nat}
    (hx : (framePacket d.addr d.len).Near x) :
    x / umemConfig.frameSize.toNat = umemConfig.frameOf d.addr := by
  obtain ⟨hlo, hhi⟩ : d.addr.toNat ≤ x ∧ x < d.addr.toNat + d.len.toNat + 64 := hx
  have hsize : umemConfig.frameSize.toNat = 4096 := rfl
  rw [Roomy, hsize, kMaxPayload] at h
  rw [UmemConfig.frameOf, hsize]
  omega

/-- No second `start()`, and every posted frame is `Roomy`. -/
def Action.Calm : Action ι → Prop
  | .start => False
  | .kernel (.kernelPost _ d) => Roomy d
  | _ => True

instance : (a : Action ι) → Decidable a.Calm
  | .start => .isFalse id
  | .kernel (.kernelPost _ d) => inferInstanceAs (Decidable (Roomy d))
  | .kernel .populate | .kernel .populateSubmit | .kernel (.rxBurst ..) | .kernel .rxBurstRelease
  | .kernel (.rxRelease ..) | .kernel .rxReleaseSubmit | .kernel .allocFrame
  | .kernel (.freeFrame _) | .kernel .kernelTake | .kernel (.kernelPublish _)
  | .populate | .populateSubmit | .stop | .join | .exit | .burst _ | .burstDone | .polled
  | .stamp _ | .next | .readByte | .parsed | .pushCheck _ | .pushWord _ | .pushStore | .drop
  | .releaseSubmit | .kernelWrite .. | .consumer _ => .isTrue trivial

theorem Roomy.inFrame {d : RxDesc} (h : Roomy d) : InFrame d := by
  rw [Roomy] at h
  rw [InFrame]
  omega

theorem Action.Calm.tame {a : Action ι} (h : a.Calm) : a.Tame := by
  cases a with
  | start => exact h.elim
  | kernel a =>
      cases a with
      | kernelPost i d => exact Roomy.inFrame h
      | _ => trivial
  | _ => trivial

/-- The event a frame has put into the ring. -/
def taken (e : Handled × Arrival) : Option FeedEvent :=
  if e.1.refused.isSome then none else e.2.event e.1.parse.ts

/-! ## Frames between post and release -/

/-- The parse that is under way. -/
def activeAt : Rx → Option Parse
  | .parsing p _ => some p
  | .pushing p _ => some p
  | _ => none

/-- The entry of the log says what the arrival is worth. -/
structure Matches (e : Handled) (a : Arrival) : Prop where
  desc : e.parse.desc = a.desc
  event : e.parse.event = a.event e.parse.ts

/-- The arrivals seen from the state `s`: `past` is through the inner
loop, `todo` is pending or still in the RX ring. -/
structure Delivered (past todo : List Arrival) (s : State ι α) : Prop where
  log : List.Forall₂ Matches s.log past
  descs : todo.map Arrival.desc = pendingAt s.frames.held s.rx ++ s.frames.rx
  roomy : ∀ a ∈ todo, Roomy a.desc
  still : ∀ a ∈ todo, ∀ y, a.packet.Near y → s.mem y = a.mem y
  active : ∀ p, activeAt s.rx = some p → ∃ a rest, todo = a :: rest ∧ p.desc = a.desc ∧
    Runs s.mem a.packet.Near p.residue (a.event p.ts)

theorem descs_of_matches {log : List Handled} {past : List Arrival}
    (h : List.Forall₂ Matches log past) :
    past.map Arrival.desc = log.map fun e => e.parse.desc := by
  induction h with
  | nil => rfl
  | cons hm _ ih => rw [List.map_cons, List.map_cons, hm.desc, ih]

theorem matches_at {log : List Handled} {past : List Arrival} {i : Nat} {e : Handled}
    (h : List.Forall₂ Matches log past) (hi : log[i]? = some e) :
    ∃ a, past[i]? = some a ∧ Matches e a := by
  induction h generalizing i with
  | nil => cases hi
  | cons hm _ ih =>
      cases i with
      | zero =>
          cases hi
          exact ⟨_, rfl, hm⟩
      | succ i => exact ih hi

/-- A log of matching frames pushed what the arrivals are worth. -/
theorem pushed_of_matches {log : List Handled} {past : List Arrival}
    (h : List.Forall₂ Matches log past) (todo : List Arrival) :
    log.filterMap Handled.pushed = (log.zip (past ++ todo)).filterMap taken := by
  induction h with
  | nil => rfl
  | cons hm _ ih =>
      rw [List.cons_append, List.zip_cons_cons, List.filterMap_cons, List.filterMap_cons, ih,
        Handled.pushed, taken, hm.event]

variable {s s' : State ι α} {past todo : List Arrival}

/-- A step that neither finishes a frame nor moves one in or out. -/
theorem Delivered.quiet (h : Delivered past todo s) (hlog : s'.log = s.log)
    (hmem : s'.mem = s.mem)
    (hpend : pendingAt s'.frames.held s'.rx ++ s'.frames.rx
      = pendingAt s.frames.held s.rx ++ s.frames.rx)
    (hact : activeAt s'.rx = none ∨ activeAt s'.rx = activeAt s.rx) : Delivered past todo s' where
  log := by rw [hlog]; exact h.log
  descs := by rw [hpend]; exact h.descs
  roomy := h.roomy
  still := by rw [hmem]; exact h.still
  active p hp := by
    rcases hact with hnone | hsame
    · rw [hnone] at hp
      cases hp
    · rw [hsame] at hp
      rw [hmem]
      exact h.active p hp

/-- The inner loop is done with the first frame to come. -/
theorem Delivered.finish (h : Delivered past todo s) (ring : Spsc.State FeedEvent ι α) {p : Parse}
    (refused : Option Nat) (rx : Rx) {rest : List RxDesc} {r : Option FeedEvent}
    (hact : activeAt s.rx = some p) (hpend : pendingAt s.frames.held s.rx = p.desc :: rest)
    (hp : p.residue = .done r) (hpend' : pendingAt s.frames.held rx = rest)
    (hact' : activeAt rx = none) :
    ∃ a todo', todo = a :: todo' ∧
      Delivered (past ++ [a]) todo' (State.finish { s with ring := ring } p refused rx) := by
  obtain ⟨a, todo', rfl, hdesc, hruns⟩ := h.active p hact
  rw [hp] at hruns
  have hevent : r = a.event p.ts := Option.some.inj hruns.eval_eq
  have hmatch : Matches ⟨p, refused⟩ a := by
    refine ⟨hdesc, ?_⟩
    rw [Parse.event_of_residue hp]
    exact hevent
  refine ⟨a, todo', rfl, List.rel_append h.log (.cons hmatch .nil), ?_, ?_, ?_, ?_⟩
  · have hdescs := h.descs
    rw [hpend, List.map_cons, List.cons_append, List.cons.injEq] at hdescs
    rw [State.finish, hpend']
    exact hdescs.2
  · exact fun b hb => h.roomy b (List.mem_cons_of_mem _ hb)
  · exact fun b hb => h.still b (List.mem_cons_of_mem _ hb)
  · intro q hq
    rw [State.finish, hact'] at hq
    cases hq

/-- The kernel posts one more frame. -/
theorem Delivered.post (h : Delivered past todo s) {d : RxDesc} {f : Umem.State} (hd : Roomy d)
    (hheld : f.held = s.frames.held) (hrx : f.rx = s.frames.rx ++ [d]) :
    Delivered past (todo ++ [⟨d, s.mem⟩]) { s with frames := f } where
  log := h.log
  descs := by
    rw [List.map_append, h.descs, hheld, hrx, List.append_assoc]
    rfl
  roomy a ha := by
    rcases List.mem_append.mp ha with ha | ha
    · exact h.roomy a ha
    · rw [List.mem_singleton.mp ha]
      exact hd
  still a ha := by
    rcases List.mem_append.mp ha with ha | ha
    · exact h.still a ha
    · rw [List.mem_singleton.mp ha]
      exact fun _ _ => rfl
  active p hp := by
    obtain ⟨a, rest, rfl, hdesc, hruns⟩ := h.active p hp
    exact ⟨a, rest ++ [⟨d, s.mem⟩], rfl, hdesc, hruns⟩

/-! ## Every step -/

theorem Coupled.pending_subset (h : Coupled s) : pendingAt s.frames.held s.rx ⊆ s.frames.held := by
  rw [Coupled] at h
  cases hrx : s.rx with
  | received => exact List.Subset.refl _
  | handling ts rest | parsing p rest | pushing p rest | refused ts rest =>
      rw [hrx] at h
      exact h.2
  | _ => exact List.nil_subset _

/-- A frame in the RX ring or with the application is not the kernel's. -/
theorem posted_elsewhere {f : Umem.State} (hI : AtMostOnce umemConfig f) {d : RxDesc}
    (hd : d ∈ f.held ++ f.rx) :
    ∀ a ∈ f.kernel, umemConfig.frameOf a ≠ umemConfig.frameOf d.addr := by
  rcases List.mem_append.mp hd with hd | hd
  · exact (held_elsewhere hI hd).2
  · intro a ha heq
    have hone : f.occ umemConfig (umemConfig.frameOf d.addr) ≤ 1 := hI _
    have hrx : 0 < umemConfig.countDescs (umemConfig.frameOf d.addr) f.rx := countDescs_pos hd
    have hkernel : 0 < umemConfig.count (umemConfig.frameOf a) f.kernel := count_pos ha
    rw [State.occ] at hone
    rw [heq] at hkernel
    omega

/-- What `rx_burst` returned is pending, and nothing is parsed yet. -/
theorem burst_columns (batch : List RxDesc) :
    pendingAt batch (if batch = [] then .polling else .received) = batch ∧
      activeAt (if batch = [] then .polling else .received) = none := by
  cases batch <;> exact ⟨rfl, rfl⟩

theorem Delivered.write {addr : Nat} {b : UInt8} (h : Delivered past todo s) (hc : Coupled s)
    (honce : AtMostOnce umemConfig s.frames)
    (hk : ∃ a ∈ s.frames.kernel, umemConfig.frameOf a = addr / umemConfig.frameSize.toNat) :
    Delivered past todo { s with mem := fun y => if y = addr then b else s.mem y } := by
  obtain ⟨k, hk, hfr⟩ := hk
  have helse : ∀ a ∈ todo, ∀ y, a.packet.Near y → y ≠ addr := by
    rintro a ha y hy rfl
    have hmem : a.desc ∈ s.frames.held ++ s.frames.rx := by
      have hdesc : a.desc ∈ todo.map Arrival.desc := List.mem_map_of_mem ha
      rw [h.descs] at hdesc
      rcases List.mem_append.mp hdesc with hd | hd
      · exact List.mem_append_left _ (hc.pending_subset hd)
      · exact List.mem_append_right _ hd
    exact posted_elsewhere honce hmem k hk (hfr.trans ((h.roomy a ha).frameOf hy))
  refine ⟨h.log, h.descs, h.roomy, fun a ha y hy => ?_, fun p hp => ?_⟩
  · exact (if_neg (helse a ha y hy)).trans (h.still a ha y hy)
  · obtain ⟨a, rest, rfl, hdesc, hruns⟩ := h.active p hp
    exact ⟨a, rest, rfl, hdesc, hruns.congr fun y hy => if_neg (helse a List.mem_cons_self y hy)⟩

section Steps

variable [Fintype ι] [DecidableEq ι]
variable {x : Libxdp} {L : Spsc.TriviallyCopyable FeedEvent ι α}

theorem delivered_step {a : Action ι} (hI : Settled x L s) (hD : Delivered past todo s)
    (ha : a.Calm) (h : step x L s a = some s') :
    ∃ past' todo', past ++ todo ++ (arrival a s').toList = past' ++ todo' ∧
      Delivered past' todo' s' := by
  have hbooks : Books L s.rx s.frames.held s.ring s.log s.received s.pktsRx s.pktsDropped :=
    hI.accounted
  have hc := hI.coupled
  -- most steps deliver nothing and finish nothing
  have hquiet : arrival a s' = none → Delivered past todo s' →
      ∃ past' todo', past ++ todo ++ (arrival a s').toList = past' ++ todo' ∧
        Delivered past' todo' s' := by
    intro hnone hD'
    refine ⟨past, todo, ?_, hD'⟩
    rw [hnone, Option.toList_none, List.append_nil]
  cases step_moves h with
  | start => exact ha.elim
  | populate hrx hf =>
      obtain ⟨-, rfl⟩ := step_populate hf
      exact hquiet rfl (hD.quiet rfl rfl (by rw [hrx]; rfl) (.inl rfl))
  | populateSubmit hrx hf =>
      obtain ⟨r, -, rfl⟩ := step_populateSubmit hf
      exact hquiet rfl (hD.quiet rfl rfl (by rw [hrx]; rfl) (.inl rfl))
  | stop => exact hquiet rfl (hD.quiet rfl rfl rfl (.inr rfl))
  | join hrx | exit hrx _ => exact hquiet rfl (hD.quiet rfl rfl (by rw [hrx]; rfl) (.inl rfl))
  | burst hrx hf =>
      obtain ⟨-, -, -, rfl⟩ := step_rxBurst hf
      exact hquiet rfl (hD.quiet rfl rfl (by rw [hrx]; rfl) (.inl rfl))
  | burstDone hrx hf =>
      obtain ⟨k, -, rfl⟩ := step_rxBurstRelease hf
      rw [Coupled, hrx] at hc
      obtain ⟨hpend, hact⟩ := burst_columns (s.frames.held ++ s.frames.rx.take k)
      refine hquiet rfl (hD.quiet rfl rfl ?_ (.inl hact))
      dsimp only
      rw [hpend, hrx, hc, List.nil_append, List.take_append_drop]
      rfl
  | polled hrx | stamp hrx =>
      exact hquiet rfl (hD.quiet rfl rfl (by rw [hrx]; rfl) (.inl rfl))
  | @nextFrame ts d rest hrx =>
      refine hquiet rfl ⟨hD.log, ?_, hD.roomy, hD.still, fun p hp => ?_⟩
      · rw [hD.descs, hrx]
        rfl
      · cases hp
        have hdescs := hD.descs
        rw [hrx] at hdescs
        cases todo with
        | nil => cases hdescs
        | cons a todo =>
            obtain ⟨hd, -⟩ := List.cons.inj hdescs
            refine ⟨a, todo, rfl, hd.symm, ?_⟩
            have hruns := buildEvent_runs_near a.mem ts a.packet
            have hsame : Parse.residue ⟨d, ts, []⟩ = buildEvent ts a.packet := by
              rw [Arrival.packet, hd]
              rfl
            rw [hsame]
            exact hruns.congr (hD.still a List.mem_cons_self)
  | release hrx hf =>
      obtain ⟨-, -, ⟨-, rfl⟩ | ⟨-, rfl⟩⟩ := step_rxRelease hf
      · exact hquiet rfl (hD.quiet rfl rfl (by rw [hrx]; rfl) (.inl rfl))
      · exact hquiet rfl (hD.quiet rfl rfl (by rw [hrx]; rfl) (.inl rfl))
  | @readByte p rest addr k hrx hp =>
      refine hquiet rfl ⟨hD.log, ?_, hD.roomy, hD.still, fun q hq => ?_⟩
      · rw [hD.descs, hrx]
        rfl
      · cases hq
        obtain ⟨a, todo', rfl, hdesc, hruns⟩ := hD.active p (by rw [hrx]; rfl)
        refine ⟨a, todo', rfl, hdesc, ?_⟩
        have hnext : Parse.residue { p with seen := p.seen ++ [s.mem addr] } = k (s.mem addr) :=
          feed_read (s.mem addr) hp
        rw [hp] at hruns
        rw [hnext]
        exact (Runs.read hruns).2
  | @skip p rest hrx hp =>
      obtain ⟨a, todo', rfl, hD'⟩ := hD.finish s.ring none (.handling p.ts rest)
        (by rw [hrx]; rfl) (by rw [hrx]; rfl) hp rfl rfl
      exact ⟨past ++ [a], todo', by simp [arrival], hD'⟩
  | push hrx hp hr =>
      exact hquiet rfl (hD.quiet rfl rfl (by rw [hrx]; rfl) (.inr (by rw [hrx]; rfl)))
  | @pushRefused j p rest r hrx hr hidle =>
      rw [hrx] at hbooks
      obtain ⟨ev, hp, -⟩ := hbooks.producer
      obtain ⟨a, todo', rfl, hD'⟩ := hD.finish r (some (r.pushed.length - j)) (.refused p.ts rest)
        (by rw [hrx]; rfl) (by rw [hrx]; rfl) hp rfl rfl
      exact ⟨past ++ [a], todo', by simp [arrival], hD'⟩
  | pushRoom hrx hr _ | pushWord hrx hr =>
      exact hquiet rfl (hD.quiet rfl rfl (by rw [hrx]) (.inr (by rw [hrx])))
  | @pushStore p rest r hrx hr =>
      rw [hrx] at hbooks
      obtain ⟨ev, hp, -⟩ := hbooks.producer
      obtain ⟨a, todo', rfl, hD'⟩ := hD.finish r none (.handling p.ts rest)
        (by rw [hrx]; rfl) (by rw [hrx]; rfl) hp rfl rfl
      exact ⟨past ++ [a], todo', by simp [arrival], hD'⟩
  | drop hrx => exact hquiet rfl (hD.quiet rfl rfl (by rw [hrx]; rfl) (.inl rfl))
  | releaseSubmit hrx hf =>
      obtain ⟨ds, r, -, rfl⟩ := step_rxReleaseSubmit hf
      exact hquiet rfl (hD.quiet rfl rfl (by rw [hrx]; rfl) (.inl rfl))
  | @kernel a f hk hf =>
      cases a with
      | kernelTake =>
          obtain ⟨_, _, -, rfl⟩ := step_kernelTake hf
          exact hquiet rfl (hD.quiet rfl rfl rfl (.inr rfl))
      | kernelPublish k =>
          obtain ⟨-, rfl⟩ := step_kernelPublish hf
          exact hquiet rfl (hD.quiet rfl rfl rfl (.inr rfl))
      | kernelPost i d =>
          obtain ⟨_, -, rfl⟩ := step_kernelPost hf
          refine ⟨past, todo ++ [⟨d, s.mem⟩], List.append_assoc .., ?_⟩
          exact hD.post ha rfl rfl
      | _ => cases hk
  | kernelWrite hk => exact hquiet rfl (hD.write hc hI.first.once hk)
  | consumer hk hr => exact hquiet rfl (hD.quiet rfl rfl rfl (.inr rfl))

/-- What the arrivals so far have become. -/
def Flow (x : Libxdp) (L : Spsc.TriviallyCopyable FeedEvent ι α) (arr : List Arrival)
    (s : State ι α) : Prop :=
  Settled x L s ∧ ∃ past todo, arr = past ++ todo ∧ Delivered past todo s

theorem flow_step {arr : List Arrival} {a : Action ι} (hI : Flow x L arr s) (ha : a.Calm)
    (h : step x L s a = some s') : Flow x L (arr ++ (arrival a s').toList) s' := by
  obtain ⟨hset, past, todo, rfl, hD⟩ := hI
  exact ⟨settled_step hset ha.tame h, delivered_step hset hD ha h⟩

theorem flow_run {b : Nat → ι → α} {mem : Nat → UInt8} {as : List (Action ι)}
    (has : ∀ a ∈ as, a.Calm) (hrun : run (step x L) (init b mem) (.start :: as) = some s) :
    Flow x L (collect (step x L) arrival (init b mem) (.start :: as)) s := by
  obtain ⟨s₁, hstart, hrest⟩ := run_cons.mp hrun
  have honly : run (step x L) (init b mem) [.start] = some s₁ := run_cons.mpr ⟨s₁, hstart, rfl⟩
  have hset : Settled x L s₁ := settled_run (List.forall_mem_nil _) honly
  have hD : Delivered [] [] s₁ := by
    cases hstart
    exact ⟨.nil, rfl, by simp, by simp, by simp [activeAt]⟩
  rw [collect_cons hstart]
  exact run_collect_where (J := Flow x L) (fun _ _ _ _ hI ha ht => flow_step hI ha ht)
    ⟨hset, [], [], rfl, hD⟩ (meets_of_labels has) hrest

end Steps

/-! ## From the wire to the consumer -/

variable [Fintype ι] [DecidableEq ι]

/-- **What is popped is what was posted.** From a single `start()`, in
every state that any interleaving reaches: the frames received, followed
by those in the RX ring, are the frames posted, in that order, none lost
and none twice; the frames not yet through the inner loop hold the bytes
they were posted with; and the events popped, followed by those in the
ring, are the events of the posted frames as the kernel posted them, in
the order of their arrival, less the frames that are not UDP and those
that `push` refused. -/
theorem popped_as_posted (x : Libxdp) (L : Spsc.TriviallyCopyable FeedEvent ι α)
    (b : Nat → ι → α) (mem : Nat → UInt8) (as : List (Action ι)) (s : State ι α)
    (has : ∀ a ∈ as, a.Calm) (hrun : run (step x L) (init b mem) (.start :: as) = some s) :
    let arr := collect (step x L) arrival (init b mem) (.start :: as)
    arr.map Arrival.desc = s.received ++ s.frames.rx ∧
      (∀ a ∈ arr.drop s.log.length, ∀ y, a.packet.Near y → s.mem y = a.mem y) ∧
      s.ring.popped ++ s.ring.contents L kRingCap = (s.log.zip arr).filterMap taken := by
  obtain ⟨hset, past, todo, harr, hD⟩ := flow_run has hrun
  have hB : Books L s.rx s.frames.held s.ring s.log s.received s.pktsRx s.pktsDropped :=
    hset.accounted
  have hlen : s.log.length = past.length := hD.log.length_eq
  intro arr
  have harr : arr = past ++ todo := harr
  refine ⟨?_, ?_, ?_⟩
  · rw [harr, List.map_append, hD.descs, descs_of_matches hD.log, ← List.append_assoc, hB.arrived]
  · rw [harr, hlen, List.drop_left]
    exact hD.still
  · rw [hB.ringInv.contents, hB.pushedLog, harr]
    exact pushed_of_matches hD.log todo

theorem popped_as_posted_oneEvent :
    ∃ s, run (step .byFree oneWord) (init (fun _ _ => {}) fun a => headerChain 8 1 (a - 256))
        (.start :: oneEvent.tail) = some s ∧
      s.ring.popped.length = 1 ∧
      s.ring.popped ++ s.ring.contents oneWord kRingCap
        = (s.log.zip (collect (step .byFree oneWord) arrival
            (init (fun _ _ => {}) fun a => headerChain 8 1 (a - 256))
            (.start :: oneEvent.tail))).filterMap taken := by
  have hrun := (Option.some_get oneEvent_enabled).symm
  have hcalm : ∀ a ∈ oneEvent.tail, a.Calm := by
    have hpost : Roomy ⟨256, 50, 0⟩ := by decide
    simp [oneEvent, oneFrameReceived, oneEventPassed, Action.Calm, hpost]
  refine ⟨_, hrun, ?_, (popped_as_posted .byFree oneWord _ _ oneEvent.tail _ hcalm hrun).2.2⟩
  clear hrun
  decide +kernel

end UltrafastFeed.Handler
