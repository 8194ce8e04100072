import UltrafastFeed.Socket.Lifecycle

/-!
# Handler — Lifetime

`FeedHandler` objects: the constructor with each of its exits, `start`,
`stop` and the destructor, any number of objects in any order. A handler
owns a `Umem`, an `XdpSocket` on it and, while it runs, the RX thread,
which works on the socket, the fill ring and the frames. So the thread is
a third layer of the ledger: it needs the socket, the handle and the
region.

The order needs no care of the caller. The members are declared in the
order in which they need each other, so that they are destroyed in the
opposite one, also when the constructor of the socket throws; and the
destructor joins the thread before it touches them.

CALLER. `start` is not called while the handler runs: assigning to a
thread that is joinable terminates the program. `World.step` has no such
step.

SYSTEM. As for `XdpSocket`; and `join` returns, so that `stop` is one
step here. The RX thread comes to its end if `poll` returns, see
`Progress`.

LEFT OUT. A constructor of `Umem` that throws because the free list
cannot be allocated (it leaks the region and the handle, see `Umem`), and
the frames that `start` puts on the fill ring, which no function here
reads.
-/

namespace UltrafastFeed.FeedHandler

open Lib.Run Lib.Ledger Function Umem

/-! ## The model -/

/-- `FeedHandler::Config`, as far as the constructor reads it. -/
structure Config where
  iface : String := "veth1"
  queueId : Int32 := 0
  /-- `XDP_FLAGS_SKB_MODE`. -/
  xdpFlags : UInt32 := 2
  /-- `XDP_COPY`. -/
  bindFlags : UInt16 := 2

/-- `make_xdp_cfg`. -/
def makeXdpCfg (cfg : Config) : XdpSocket.Config where
  iface := cfg.iface
  queueId := cfg.queueId.toUInt32
  xdpFlags := cfg.xdpFlags
  bindFlags := cfg.bindFlags

/-- A call that succeeded; `threadStart` has what the thread works on. -/
inductive Call (ι : Type) where
  | inner (c : XdpSocket.Call)
  | threadStart (i : ι) (sock umem addr : Nat) (size : UInt64)
  | threadJoin (i : ι)
  deriving DecidableEq, Repr

inductive Resource (ι : Type) where
  | inner (r : XdpSocket.Resource)
  | thread (i : ι)
  deriving DecidableEq, Repr

variable {ι : Type}

/-- What the RX thread of a handler works on. -/
def worksOn (sock umem addr : Nat) (size : UInt64) : List XdpSocket.Resource :=
  [.socket sock, .umem (.handle umem), .umem (.region addr size)]

def heldThread (i : ι) (sock umem addr : Nat) (size : UInt64) : Held (Resource ι) :=
  ⟨.thread i, (worksOn sock umem addr size).map .inner⟩

def Call.event : Call ι → Event (Resource ι)
  | .inner c => c.event.map .inner
  | .threadStart i sock umem addr size =>
      .acquire (.thread i) ((worksOn sock umem addr size).map .inner)
  | .threadJoin i => .release (.thread i)

/-- The objects, whether each handler runs, and the calls. -/
structure World (ι : Type) where
  inner : XdpSocket.World ι ι
  handlers : ι → Option Bool
  log : List (Call ι)

def World.empty : World ι := ⟨.empty, fun _ => none, []⟩

inductive Op (ι : Type) where
  | construct (i : ι) (cfg : Config) (ans : Answers) (sock : Except Int Nat)
  | start (i : ι) (created : Bool)
  | stop (i : ι)
  | destroy (i : ι)

section Step

variable [DecidableEq ι]

/-- An operation on a member. -/
def World.apply (w : World ι) (op : XdpSocket.Op ι ι) : Option (World ι) :=
  (w.inner.step op).map fun v =>
    { w with inner := v, log := w.log ++ (v.log.drop w.inner.log.length).map .inner }

/-- `FeedHandler::FeedHandler`: a member that throws ends it, after the
members before it are destroyed. -/
def World.construct (w : World ι) (i : ι) (cfg : Config) (ans : Answers)
    (sock : Except Int Nat) : Option (World ι) :=
  (w.apply (.umem (.construct i {} ans))).bind fun w₁ =>
    if (w₁.inner.umems i).isNone then some w₁
    else
      (w₁.apply (.construct i i (makeXdpCfg cfg) sock)).bind fun w₂ =>
        if (w₂.inner.socks i).isNone then w₂.apply (.umem (.destroy i))
        else some { w₂ with handlers := update w₂.handlers i (some false) }

/-- What the thread of object `i` will work on: `socket_`, `umem_`,
`region_` and `region_size_`. -/
def World.members (w : World ι) (i : ι) : Option (Nat × Nat × Nat × UInt64) := do
  let o ← w.inner.umems i
  let s ← w.inner.socks i
  return (← s.socket, ← o.umem, ← o.region, o.regionSize)

/-- `start`; `created` says whether the thread could be created. -/
def World.start (w : World ι) (i : ι) (created : Bool) : Option (World ι) :=
  match w.handlers i with
  | some false =>
      if created then
        (w.members i).map fun (sock, umem, addr, size) =>
          { w with
            handlers := update w.handlers i (some true)
            log := w.log ++ [.threadStart i sock umem addr size] }
      else some w
  | _ => none

/-- `stop`. -/
def World.stop (w : World ι) (i : ι) : Option (World ι) :=
  match w.handlers i with
  | none => none
  | some false => some w
  | some true =>
      some { w with
        handlers := update w.handlers i (some false), log := w.log ++ [.threadJoin i] }

/-- `FeedHandler::~FeedHandler`: `stop`, then the members from the last
to the first. -/
def World.destroy (w : World ι) (i : ι) : Option (World ι) :=
  (w.stop i).bind fun w₁ =>
    (w₁.apply (.destroy i)).bind fun w₂ =>
      (w₂.apply (.umem (.destroy i))).map fun w₃ =>
        { w₃ with handlers := update w₃.handlers i none }

def World.step (w : World ι) : Op ι → Option (World ι)
  | .construct i cfg ans sock =>
      if (w.handlers i).isNone then w.construct i cfg ans sock else none
  | .start i created => w.start i created
  | .stop i => w.stop i
  | .destroy i => w.destroy i

/-- A call on a member. -/
def Call.inner? : Call ι → Option XdpSocket.Call
  | .inner c => some c
  | _ => none

/-- The threads that run after a call. -/
def running (threads : List (Held (Resource ι))) : Call ι → List (Held (Resource ι))
  | .inner _ => threads
  | .threadStart i sock umem addr size => heldThread i sock umem addr size :: threads
  | .threadJoin i => threads.filter fun h => h.res ≠ .thread i

def World.threads (w : World ι) : List (Held (Resource ι)) := w.log.foldl running []

end Step

/-! ## Members -/

/-- The `Umem` and the socket of handler `i`. -/
structure Whole (W : XdpSocket.World ι ι) (i : ι) (sock umem addr : Nat) (size : UInt64) :
    Prop where
  holds : Holds W.umems i addr size umem
  socket : W.socks i = some ⟨i, some sock⟩
  opened : (sock, umem) ∈ W.opened

/-- A handler has both members, and what is none has neither. -/
def Shaped (W : XdpSocket.World ι ι) (handler : Option Bool) (i : ι) : Prop :=
  handler = none ∧ W.umems i = none ∧ W.socks i = none ∨
    handler ≠ none ∧ ∃ sock umem addr size, Whole W i sock umem addr size

/-- The calls `calls` lead from `W` to `W'` and concern object `i`
alone. -/
structure Local (W W' : XdpSocket.World ι ι) (calls : List XdpSocket.Call) (i : ι) : Prop where
  log : W'.log = W.log ++ calls
  umems : ∀ j, j ≠ i → W'.umems j = W.umems j
  socks : ∀ j, j ≠ i → W'.socks j = W.socks j
  opened : ∀ j, j ≠ i → ∀ sock umem, W.socks j = some ⟨j, some sock⟩ →
    (sock, umem) ∈ W.opened → (sock, umem) ∈ W'.opened
  spares : ∀ j, j ≠ i → ∀ sock umem addr size, Whole W j sock umem addr size →
    ∀ c ∈ calls, ∀ r ∈ worksOn sock umem addr size, c.event ≠ .release r

section Members

variable {W W' : XdpSocket.World ι ι} {calls : List XdpSocket.Call} {i j : ι}
  {sock umem addr : Nat} {size : UInt64}

theorem Local.whole (h : Local W W' calls i) (hj : j ≠ i) (hw : Whole W j sock umem addr size) :
    Whole W' j sock umem addr size where
  holds := by
    obtain ⟨cfg, huge, hbuilt⟩ := hw.holds
    exact ⟨cfg, huge, by rw [h.umems j hj, hbuilt]⟩
  socket := by rw [h.socks j hj, hw.socket]
  opened := h.opened j hj sock umem hw.socket hw.opened

theorem Local.shaped (h : Local W W' calls i) (hj : j ≠ i) {handler : Option Bool}
    (hs : Shaped W handler j) : Shaped W' handler j := by
  rcases hs with ⟨hnone, humem, hsock⟩ | ⟨hsome, sock, umem, addr, size, hw⟩
  · exact .inl ⟨hnone, by rw [h.umems j hj, humem], by rw [h.socks j hj, hsock]⟩
  · exact .inr ⟨hsome, sock, umem, addr, size, h.whole hj hw⟩

theorem Whole.members_eq {w : World ι} (hw : Whole w.inner i sock umem addr size) :
    w.members i = some (sock, umem, addr, size) := by
  obtain ⟨cfg, huge, hbuilt⟩ := hw.holds
  rw [World.members, hbuilt, hw.socket]
  rfl

variable {low : List (Held Umem.Resource)} {mid : List (Held XdpSocket.Resource)}

theorem mem_worksOn {r : XdpSocket.Resource} :
    r ∈ worksOn sock umem addr size ↔
      r = .socket sock ∨ r = .umem (.handle umem) ∨ r = .umem (.region addr size) := by
  simp [worksOn]

/-- An open socket has the handle of its own handler, so none is open on
the handle of an object without a socket. -/
theorem not_open_on (hS : XdpSocket.Sound W low mid) (hO : XdpSocket.Owned W.socks W.opened)
    (hothers : ∀ j, j ≠ i → ∃ handler, Shaped W handler j) (hnone : W.socks i = none)
    (hi : Holds W.umems i addr size umem) : umem ∉ W.opened.map Prod.snd := by
  intro hmem
  obtain ⟨p, hp, rfl⟩ := List.mem_map.mp hmem
  obtain ⟨k, o, hk, ho⟩ := hO.owner (List.mem_map_of_mem hp)
  have hki : k ≠ i := by
    rintro rfl
    rw [hnone] at hk
    cases hk
  obtain ⟨handler, ⟨-, -, hsock⟩ | ⟨-, sock, umem, addr', size', hw⟩⟩ := hothers k hki
  · rw [hsock] at hk
    cases hk
  · rw [hw.socket] at hk
    cases hk
    cases ho
    have heq : p = (p.1, umem) := List.inj_on_of_nodup_map hO.nodup hp hw.opened rfl
    have humem : umem = p.2 := (congrArg Prod.snd heq).symm
    exact hki (hS.umems.distinct k i _ _ _ _ _ _ hw.holds hi (.inr humem))

variable [DecidableEq ι]

/-- The constructor of the `Umem`. -/
theorem local_umemConstruct (hS : XdpSocket.Sound W low mid) {cfg : CtorConfig} {ans : Answers}
    (h : W.step (.umem (.construct i cfg ans)) = some W') :
    ∃ calls, Local W W' calls i ∧ W'.socks i = W.socks i ∧
      (W'.umems i = none ∨ ∃ addr size umem, Holds W'.umems i addr size umem) := by
  obtain ⟨v, calls, hv, hlog, rfl, -⟩ := XdpSocket.World.step_umem h
  refine ⟨calls.map .umem, ⟨rfl, ?_, fun _ _ => rfl, ?_, ?_⟩, rfl, ?_⟩
  · intro j hj
    obtain ⟨-, rfl | ⟨addr, size, huge, -, rfl | ⟨umem, -, rfl⟩⟩⟩ :=
      Umem.World.step_construct hv
    · rfl
    · rfl
    · exact update_of_ne hj ..
  · intro j _ sock umem _ hmem
    rw [XdpSocket.World.opened, List.foldl_append, foldl_lifted XdpSocket.opens_umem]
    exact hmem
  · intro j hj sock umem addr size hw c hc r hr hrel
    obtain ⟨d, hd, rfl⟩ := List.mem_map.mp hc
    obtain ⟨⟨-, hfresh⟩, rfl | ⟨addr', size', huge, hmaps, rfl | ⟨umem', -, rfl⟩⟩⟩ :=
      Umem.World.step_construct hv
    · rw [List.self_eq_append_right.mp hlog] at hd
      cases hd
    · -- the region that is mapped and unmapped again is no other object's
      obtain rfl := List.append_cancel_left hlog
      rcases List.mem_cons.mp hd with rfl | hd
      · cases hrel
      · obtain rfl := List.mem_singleton.mp hd
        cases hrel
        rcases mem_worksOn.mp hr with hr | hr | hr
        · cases hr
        · cases hr
        · cases hr
          exact hS.umems.fresh_addr (hmaps.fresh hfresh) hw.holds rfl
    · obtain rfl := List.append_cancel_left hlog
      rcases List.mem_cons.mp hd with rfl | hd
      · cases hrel
      · obtain rfl := List.mem_singleton.mp hd
        cases hrel
  · obtain ⟨⟨hi, -⟩, rfl | ⟨addr, size, huge, -, rfl | ⟨umem, -, rfl⟩⟩⟩ :=
      Umem.World.step_construct hv
    · exact .inl hi
    · exact .inl hi
    · exact .inr ⟨addr, size, umem, cfg, huge, update_self ..⟩

/-- The destructor of the `Umem`. -/
theorem local_umemDestroy (hS : XdpSocket.Sound W low mid)
    (hi : Holds W.umems i addr size umem) (h : W.step (.umem (.destroy i)) = some W') :
    ∃ calls, Local W W' calls i ∧ W'.socks i = W.socks i ∧ W'.umems i = none := by
  obtain ⟨v, calls, hv, hlog, rfl, hdown, -⟩ := XdpSocket.World.step_umem h
  obtain ⟨o, ho, rfl⟩ := Umem.World.step_destroy hv
  obtain ⟨cfg, huge, hbuilt⟩ := id hi
  have hcalls : calls = [.xskUmemDelete umem, .munmap addr size] := hdown i _ rfl hbuilt
  refine ⟨calls.map .umem, ⟨rfl, fun j hj => update_of_ne hj .., fun _ _ => rfl, ?_, ?_⟩, rfl,
    update_self ..⟩
  · intro j _ sock umem _ hmem
    rw [XdpSocket.World.opened, List.foldl_append, foldl_lifted XdpSocket.opens_umem]
    exact hmem
  · intro j hj sock umem' addr' size' hw c hc r hr hrel
    have hother : ¬ (addr' = addr ∨ umem' = umem) :=
      fun hsame => hj (hS.umems.distinct j i _ _ _ _ _ _ hw.holds hi hsame)
    obtain ⟨d, hd, rfl⟩ := List.mem_map.mp hc
    rw [hcalls] at hd
    rcases List.mem_cons.mp hd with rfl | hd
    · cases hrel
      rcases mem_worksOn.mp hr with hr | hr | hr
      · cases hr
      · cases hr
        exact hother (.inr rfl)
      · cases hr
    · obtain rfl := List.mem_singleton.mp hd
      cases hrel
      rcases mem_worksOn.mp hr with hr | hr | hr
      · cases hr
      · cases hr
      · cases hr
        exact hother (.inl rfl)

/-- The constructor of the socket. -/
theorem local_construct {cfg : XdpSocket.Config} {ans : Except Int Nat}
    (hi : Holds W.umems i addr size umem)
    (h : W.step (.construct i i cfg ans) = some W') :
    ∃ calls, Local W W' calls i ∧ W'.umems i = W.umems i ∧
      (W'.socks i = none ∨ ∃ sock, Whole W' i sock umem addr size) := by
  obtain ⟨hnone, o, ho, rfl | ⟨sock, handle, hu, hnew, rfl⟩⟩ := XdpSocket.World.step_construct h
  · refine ⟨[], ⟨by simp, fun _ _ => rfl, fun _ _ => rfl, fun _ _ _ _ _ hmem => hmem, ?_⟩, rfl,
      .inl hnone⟩
    intro j _ sock umem addr size _ c hc
    cases hc
  · obtain ⟨ucfg, huge, hbuilt⟩ := id hi
    rw [hbuilt] at ho
    cases ho
    cases hu
    have hopened : List.foldl XdpSocket.opens [] (W.log
        ++ [.socketCreate sock cfg.iface cfg.queueId umem cfg.xskConfig])
          = (sock, umem) :: W.opened := List.foldl_append
    refine ⟨_, ⟨rfl, fun _ _ => rfl, fun j hj => update_of_ne hj .., ?_, ?_⟩, rfl,
      .inr ⟨sock, hi, update_self .., ?_⟩⟩
    · intro j _ s u _ hmem
      rw [XdpSocket.World.opened, hopened]
      exact List.mem_cons_of_mem _ hmem
    · intro j _ s u a z _ c hc r _ hrel
      obtain rfl := List.mem_singleton.mp hc
      cases hrel
    · rw [XdpSocket.World.opened, hopened]
      exact List.mem_cons_self

/-- The destructor of the socket. -/
theorem local_destroy (hO : XdpSocket.Owned W.socks W.opened)
    (hi : Whole W i sock umem addr size) (h : W.step (.destroy i) = some W') :
    ∃ calls, Local W W' calls i ∧ W'.umems i = W.umems i ∧ W'.socks i = none := by
  obtain ⟨o, ho, rfl⟩ := XdpSocket.World.step_destroy h
  rw [hi.socket] at ho
  cases ho
  have hother : ∀ j, j ≠ i → ∀ s, W.socks j = some ⟨j, some s⟩ → s ≠ sock := by
    rintro j hj s hs rfl
    exact hj (hO.distinct ⟨_, hs, rfl⟩ ⟨_, hi.socket, rfl⟩)
  have hopened : List.foldl XdpSocket.opens [] (W.log ++ [.socketDelete sock])
      = W.opened.filter fun p => p.1 ≠ sock := List.foldl_append
  refine ⟨[.socketDelete sock], ⟨rfl, fun _ _ => rfl, fun j hj => update_of_ne hj .., ?_, ?_⟩,
    rfl, update_self ..⟩
  · intro j hj s u hs hmem
    show (s, u) ∈ List.foldl XdpSocket.opens [] (W.log ++ [.socketDelete sock])
    rw [hopened, List.mem_filter]
    exact ⟨hmem, by simpa using hother j hj s hs⟩
  · intro j hj s u a z hw c hc r hr hrel
    obtain rfl := List.mem_singleton.mp hc
    cases hrel
    rcases mem_worksOn.mp hr with hr | hr | hr
    · cases hr
      exact hother j hj _ hw.socket rfl
    · cases hr
    · cases hr

end Members

/-! ## Logs -/

theorem inner?_inner (c : XdpSocket.Call) : Call.inner? (.inner c : Call ι) = some c := rfl

theorem running_inner [DecidableEq ι] (threads : List (Held (Resource ι))) (c : XdpSocket.Call) :
    running threads (.inner c) = threads := rfl

theorem event_inner (c : XdpSocket.Call) :
    (Call.inner c : Call ι).event = c.event.map Resource.inner := rfl

theorem inner_injective : Injective (Resource.inner : _ → Resource ι) :=
  fun _ _ h => Resource.inner.inj h

/-! ## The books -/

section Books

variable [DecidableEq ι]

/-- The books of the whole: those of the members, and on top the threads,
which are those of the handlers that run. -/
structure Books (w : World ι) (low : List (Held Umem.Resource))
    (mid : List (Held XdpSocket.Resource)) (live : List (Held (Resource ι))) : Prop where
  inner : XdpSocket.Sound w.inner low mid
  owned : XdpSocket.Owned w.inner.socks w.inner.opened
  calls : lower Call.inner? w.log = w.inner.log
  ledger : run (Lib.Ledger.step Call.event) [] w.log = some live
  stacked : Stacked Resource.inner mid w.threads live
  runs : ∀ i, w.handlers i = some true → .thread i ∈ names w.threads
  works : ∀ h ∈ w.threads, ∃ i sock umem addr size, h = heldThread i sock umem addr size ∧
    w.handlers i = some true ∧ Whole w.inner i sock umem addr size

/-- **The books balance**, and every handler has its members. -/
structure Kept (w : World ι) : Prop where
  books : ∃ low mid live, Books w low mid live
  shaped : ∀ i, Shaped w.inner (w.handlers i) i

/-- The same in the middle of a constructor or a destructor of object
`i`. -/
structure Opened (w : World ι) (i : ι) : Prop where
  books : ∃ low mid live, Books w low mid live
  others : ∀ j, j ≠ i → Shaped w.inner (w.handlers j) j
  idle : w.handlers i ≠ some true

variable {w w' : World ι} {i : ι} {low : List (Held Umem.Resource)}
  {mid : List (Held XdpSocket.Resource)} {live : List (Held (Resource ι))}
  {sock umem addr : Nat} {size : UInt64}

theorem kept_empty : Kept (World.empty : World ι) where
  books := ⟨[], [], [], XdpSocket.sound_empty, XdpSocket.owned_empty, rfl, rfl, stacked_nil _,
    by simp [World.empty], by simp [World.empty, World.threads]⟩
  shaped _ := .inl ⟨rfl, rfl, rfl⟩

/-- A handler that does not run is open for a change. -/
theorem Kept.opened (h : Kept w) (hi : w.handlers i ≠ some true) : Opened w i :=
  ⟨h.books, fun j _ => h.shaped j, hi⟩

/-- The end of a constructor or destructor. -/
theorem Opened.kept (h : Opened w i) (hi : Shaped w.inner (w.handlers i) i) : Kept w where
  books := h.books
  shaped j := by
    by_cases hj : j = i
    · rw [hj]
      exact hi
    · exact h.others j hj

/-- The object comes into being, or goes. -/
theorem Opened.becomes (h : Opened w i) {b : Option Bool} (hb : b ≠ some true)
    (hi : Shaped w.inner b i) : Kept { w with handlers := update w.handlers i b } := by
  obtain ⟨low, mid, live, hB⟩ := h.books
  have hother : ∀ j, update w.handlers i b j = some true ↔ w.handlers j = some true := by
    intro j
    by_cases hj : j = i
    · rw [hj, update_self]
      exact iff_of_false hb h.idle
    · rw [update_of_ne hj]
  refine ⟨⟨low, mid, live, hB.inner, hB.owned, hB.calls, hB.ledger, hB.stacked, ?_, ?_⟩, ?_⟩
  · intro j hj
    exact hB.runs j ((hother j).mp hj)
  · intro k hk
    obtain ⟨j, sock, umem, addr, size, heq, hj, hw⟩ := hB.works k hk
    exact ⟨j, sock, umem, addr, size, heq, (hother j).mpr hj, hw⟩
  · intro j
    by_cases hj : j = i
    · rw [hj]
      simpa using hi
    · simpa [hj] using h.others j hj

/-! ## Operations on members -/

theorem World.apply_eq {op : XdpSocket.Op ι ι} (h : w.apply op = some w') :
    ∃ v, w.inner.step op = some v ∧ ∀ calls, v.log = w.inner.log ++ calls →
      w' = ⟨v, w.handlers, w.log ++ calls.map .inner⟩ := by
  rw [World.apply, Option.map_eq_some_iff] at h
  obtain ⟨v, hv, rfl⟩ := h
  refine ⟨v, hv, fun calls hlog => ?_⟩
  rw [hlog, List.drop_left]

/-- What concerns an object without a thread alone is no thread's
business. -/
theorem Books.apply (hB : Books w low mid live) {op : XdpSocket.Op ι ι}
    {v : XdpSocket.World ι ι} {calls : List XdpSocket.Call} (hstep : w.inner.step op = some v)
    (hout : XdpSocket.Outlives w.inner op) (hlocal : Local w.inner v calls i)
    (hi : w.handlers i ≠ some true) :
    ∃ low' mid' live', Books ⟨v, w.handlers, w.log ++ calls.map .inner⟩ low' mid' live' := by
  obtain ⟨low', mid', hS⟩ := XdpSocket.World.step_sound hstep hout hB.owned hB.inner
  have hmid : run (Lib.Ledger.step XdpSocket.Call.event) mid calls = some mid' :=
    run_rest hB.inner.ledger (hlocal.log ▸ hS.ledger)
  have hne : ∀ j, w.handlers j = some true → j ≠ i := by
    rintro j hj rfl
    exact hi hj
  have hfree : ∀ c ∈ calls, ∀ r, c.event = .release r →
      ∀ s ∈ w.threads, Resource.inner r ∉ s.needs := by
    intro c hc r hr s hs hneeds
    obtain ⟨j, sock, umem, addr, size, rfl, hj, hw⟩ := hB.works s hs
    obtain ⟨r', hr', heq⟩ := List.mem_map.mp hneeds
    cases heq
    exact hlocal.spares j (hne j hj) sock umem addr size hw c hc r hr' hr
  obtain ⟨live', hlive, hst⟩ : ∃ live',
      run (Lib.Ledger.step Call.event) live (calls.map .inner) = some live' ∧
        Stacked Resource.inner mid' w.threads live' :=
    hB.stacked.run_low event_inner inner_injective hmid hfree
  have hthreads : List.foldl running [] (w.log ++ calls.map .inner) = w.threads := by
    rw [List.foldl_append, foldl_lifted running_inner, World.threads]
  refine ⟨low', mid', live', hS, XdpSocket.World.step_owned hstep hB.owned, ?_,
    run_append.mpr ⟨live, hB.ledger, hlive⟩, ?_, ?_, ?_⟩
  · rw [lower_append, lower_lifted inner?_inner, hB.calls]
    exact hlocal.log.symm
  · rw [World.threads, hthreads]
    exact hst
  · rw [World.threads, hthreads]
    exact hB.runs
  · rw [World.threads, hthreads]
    intro s hs
    obtain ⟨j, sock, umem, addr, size, heq, hj, hw⟩ := hB.works s hs
    exact ⟨j, sock, umem, addr, size, heq, hj, hlocal.whole (hne j hj) hw⟩

/-- **An operation on a member** of the object that is open. -/
theorem Opened.apply (h : Opened w i) {op : XdpSocket.Op ι ι} (happ : w.apply op = some w')
    (hout : XdpSocket.Outlives w.inner op) {P : XdpSocket.World ι ι → Prop}
    (hlocal : ∀ v, w.inner.step op = some v → ∃ calls, Local w.inner v calls i ∧ P v) :
    Opened w' i ∧ w'.handlers = w.handlers ∧ P w'.inner := by
  obtain ⟨low, mid, live, hB⟩ := h.books
  obtain ⟨v, hv, heq⟩ := World.apply_eq happ
  obtain ⟨calls, hL, hP⟩ := hlocal v hv
  obtain rfl := heq calls hL.log
  exact ⟨⟨hB.apply hv hout hL h.idle, fun j hj => hL.shaped hj (h.others j hj), h.idle⟩, rfl, hP⟩

theorem outlives_destroy {W : XdpSocket.World ι ι} (hi : Holds W.umems i addr size umem)
    (hopen : umem ∉ W.opened.map Prod.snd) : XdpSocket.Outlives W (.umem (.destroy i)) := by
  intro j hj o ho u hu
  cases hj
  obtain ⟨cfg, huge, hbuilt⟩ := hi
  rw [Option.mem_def, hbuilt] at ho
  cases ho
  cases hu
  exact hopen

/-- **The destructor of the `Umem`** comes when the object has no socket,
so no socket is open on the handle. -/
theorem Opened.umemDestroy (h : Opened w i) (hsock : w.inner.socks i = none)
    (hi : Holds w.inner.umems i addr size umem) (happ : w.apply (.umem (.destroy i)) = some w') :
    Opened w' i ∧ w'.handlers = w.handlers ∧ w'.inner.umems i = none ∧ w'.inner.socks i = none := by
  obtain ⟨low, mid, live, hB⟩ := h.books
  have hopen := not_open_on hB.inner hB.owned (fun j hj => ⟨_, h.others j hj⟩) hsock hi
  obtain ⟨hO, hh, hsocks, humem⟩ := h.apply happ (outlives_destroy hi hopen)
    fun _ => local_umemDestroy hB.inner hi
  exact ⟨hO, hh, humem, hsocks.trans hsock⟩

/-! ## Operations on handlers -/

theorem Kept.construct {cfg : Config} {ans : Answers} {s : Except Int Nat}
    (h : w.construct i cfg ans s = some w') (hi : w.handlers i = none) (hK : Kept w) :
    Kept w' := by
  rw [World.construct, Option.bind_eq_some_iff] at h
  obtain ⟨w₁, h₁, h⟩ := h
  have hO : Opened w i := hK.opened (by simp [hi])
  have hsock : w.inner.socks i = none := by
    rcases hK.shaped i with ⟨-, -, hsock⟩ | ⟨hsome, -⟩
    · exact hsock
    · exact absurd hi hsome
  obtain ⟨low, mid, live, hB⟩ := hO.books
  obtain ⟨hO₁, hh₁, hsock₁, humem₁⟩ :=
    hO.apply h₁ (by simp [XdpSocket.Outlives, XdpSocket.tearsDown])
    fun _ => local_umemConstruct hB.inner
  rw [hsock] at hsock₁
  have hi₁ : w₁.handlers i = none := (congrFun hh₁ i).trans hi
  split at h
  next hnone =>
    -- the constructor of the `Umem` threw
    cases h
    exact hO₁.kept (.inl ⟨hi₁, Option.isNone_iff_eq_none.mp hnone, hsock₁⟩)
  next hnone =>
    rw [Option.bind_eq_some_iff] at h
    obtain ⟨w₂, h₂, h⟩ := h
    obtain ⟨addr, size, umem, humem⟩ :=
      humem₁.resolve_left fun heq => hnone (Option.isNone_iff_eq_none.mpr heq)
    obtain ⟨hO₂, hh₂, hsame, hsock₂⟩ := hO₁.apply h₂ trivial fun _ => local_construct humem
    have humem₂ : Holds w₂.inner.umems i addr size umem := by
      obtain ⟨c, huge, hbuilt⟩ := humem
      exact ⟨c, huge, hsame.trans hbuilt⟩
    split at h
    next hnone₂ =>
      -- that of the socket threw
      obtain ⟨hO₃, hh₃, hgone, hsock₃⟩ :=
        hO₂.umemDestroy (Option.isNone_iff_eq_none.mp hnone₂) humem₂ h
      refine hO₃.kept (.inl ⟨?_, hgone, hsock₃⟩)
      rw [hh₃, hh₂, hi₁]
    next hsome =>
      cases h
      obtain ⟨sock, hw⟩ :=
        hsock₂.resolve_left fun heq => hsome (Option.isNone_iff_eq_none.mpr heq)
      exact hO₂.becomes (by simp) (.inr ⟨by simp, sock, umem, addr, size, hw⟩)

/-- What a handler works on is live. -/
theorem Books.works_live (hB : Books w low mid live) (hw : Whole w.inner i sock umem addr size) :
    ∀ r ∈ worksOn sock umem addr size, Resource.inner r ∈ names live := by
  intro r hr
  rw [hB.stacked.mem_names_low inner_injective]
  have hheld := hB.inner.umems.holds i addr size umem hw.holds
  rcases mem_worksOn.mp hr with rfl | rfl | rfl
  · rw [hB.inner.stacked.mem_names_up (by simp), XdpSocket.mem_names_heldSockets]
    exact List.mem_map_of_mem hw.opened
  · rw [hB.inner.stacked.mem_names_low XdpSocket.umem_injective]
    exact mem_names.mpr ⟨_, hheld _ (mem_held.mpr (.inr rfl)), rfl⟩
  · rw [hB.inner.stacked.mem_names_low XdpSocket.umem_injective]
    exact mem_names.mpr ⟨_, hheld _ (mem_held.mpr (.inl rfl)), rfl⟩

theorem Kept.whole (hK : Kept w) {b : Bool} (hi : w.handlers i = some b) :
    ∃ sock umem addr size, Whole w.inner i sock umem addr size := by
  rcases hK.shaped i with ⟨hnone, -⟩ | ⟨-, hw⟩
  · rw [hnone] at hi
    cases hi
  · exact hw

/-- Whether a handler runs does not change its members. -/
theorem shaped_update {W : XdpSocket.World ι ι} {handlers : ι → Option Bool}
    (hshaped : ∀ j, Shaped W (handlers j) j) (hi : handlers i ≠ none) (b : Bool) (j : ι) :
    Shaped W (update handlers i (some b) j) j := by
  by_cases hj : j = i
  · subst hj
    rcases hshaped j with ⟨hnone, -⟩ | ⟨-, hw⟩
    · exact absurd hnone hi
    · rw [update_self]
      exact .inr ⟨by simp, hw⟩
  · rw [update_of_ne hj]
    exact hshaped j

/-- The thread starts. -/
theorem Kept.started (hK : Kept w) (hi : w.handlers i = some false)
    (hw : Whole w.inner i sock umem addr size) :
    Kept { w with
      handlers := update w.handlers i (some true)
      log := w.log ++ [.threadStart i sock umem addr size] } := by
  obtain ⟨low, mid, live, hB⟩ := hK.books
  have hnew : Resource.thread i ∉ names w.threads := by
    intro hmem
    obtain ⟨h, hh, hres⟩ := mem_names.mp hmem
    obtain ⟨j, sock, umem, addr, size, rfl, hj, -⟩ := hB.works h hh
    cases hres
    rw [hi] at hj
    cases hj
  have hneeds : ∀ n ∈ (worksOn sock umem addr size).map Resource.inner, n ∈ names live := by
    intro n hn
    obtain ⟨r, hr, rfl⟩ := List.mem_map.mp hn
    exact hB.works_live hw r hr
  obtain ⟨live', hpost, hst⟩ := hB.stacked.acquire (by simp) hnew hneeds
  have hthreads : List.foldl running [] (w.log ++ [.threadStart i sock umem addr size])
      = heldThread i sock umem addr size :: w.threads := List.foldl_append
  have hruns : ∀ j, update w.handlers i (some true) j = some true ↔
      j = i ∨ w.handlers j = some true := by
    intro j
    by_cases hj : j = i
    · simp [hj]
    · simp [hj]
  refine ⟨⟨low, mid, live', hB.inner, hB.owned, ?_,
    run_append.mpr ⟨live, hB.ledger, run_cons.mpr ⟨live', hpost, rfl⟩⟩, ?_, ?_, ?_⟩,
    shaped_update hK.shaped (by simp [hi]) true⟩
  · rw [lower_concat rfl]
    exact hB.calls
  · rw [World.threads, hthreads]
    exact hst
  · intro j hj
    rw [World.threads, hthreads, names, List.map_cons, List.mem_cons]
    exact ((hruns j).mp hj).imp (congrArg Resource.thread) (hB.runs j)
  · intro h hh
    rw [World.threads, hthreads] at hh
    rcases List.mem_cons.mp hh with rfl | hh
    · exact ⟨i, sock, umem, addr, size, rfl, (hruns i).mpr (.inl rfl), hw⟩
    · obtain ⟨j, s, u, a, z, heq, hj, hw⟩ := hB.works h hh
      exact ⟨j, s, u, a, z, heq, (hruns j).mpr (.inr hj), hw⟩

/-- The thread is joined. -/
theorem Kept.joined (hK : Kept w) (hi : w.handlers i = some true) :
    Kept { w with
      handlers := update w.handlers i (some false), log := w.log ++ [.threadJoin i] } := by
  obtain ⟨low, mid, live, hB⟩ := hK.books
  have hfree : ∀ h ∈ w.threads, Resource.thread i ∉ h.needs := by
    intro h hh
    obtain ⟨j, sock, umem, addr, size, rfl, -⟩ := hB.works h hh
    simp [heldThread]
  obtain ⟨live', hpost, hst⟩ := hB.stacked.release (by simp) (hB.runs i hi) hfree
  have hthreads : List.foldl running [] (w.log ++ [.threadJoin i])
      = w.threads.filter fun h => h.res ≠ .thread i := List.foldl_append
  have hruns : ∀ j, update w.handlers i (some false) j = some true ↔
      j ≠ i ∧ w.handlers j = some true := by
    intro j
    by_cases hj : j = i
    · simp [hj]
    · simp [hj]
  refine ⟨⟨low, mid, live', hB.inner, hB.owned, ?_,
    run_append.mpr ⟨live, hB.ledger, run_cons.mpr ⟨live', hpost, rfl⟩⟩, ?_, ?_, ?_⟩,
    shaped_update hK.shaped (by simp [hi]) false⟩
  · rw [lower_concat rfl]
    exact hB.calls
  · rw [World.threads, hthreads]
    exact hst
  · intro j hj
    obtain ⟨hne, hj⟩ := (hruns j).mp hj
    obtain ⟨h, hh, hres⟩ := mem_names.mp (hB.runs j hj)
    rw [World.threads, hthreads]
    refine mem_names.mpr ⟨h, mem_filter_ne.mpr ⟨hh, fun heq => hne ?_⟩, hres⟩
    exact Resource.thread.inj (hres.symm.trans heq)
  · intro h hh
    rw [World.threads, hthreads, mem_filter_ne] at hh
    obtain ⟨j, sock, umem, addr, size, rfl, hj, hw⟩ := hB.works h hh.1
    have hne : j ≠ i := fun heq => hh.2 (congrArg Resource.thread heq)
    exact ⟨j, sock, umem, addr, size, rfl, (hruns j).mpr ⟨hne, hj⟩, hw⟩

theorem World.stop_cases (h : w.stop i = some w') :
    w.handlers i = some false ∧ w' = w ∨
      w.handlers i = some true ∧ w' = { w with
        handlers := update w.handlers i (some false), log := w.log ++ [.threadJoin i] } := by
  rw [World.stop] at h
  split at h
  next => cases h
  next hi => exact .inl ⟨hi, (Option.some.inj h).symm⟩
  next hi => exact .inr ⟨hi, (Option.some.inj h).symm⟩

theorem Kept.stop (h : w.stop i = some w') (hK : Kept w) :
    Kept w' ∧ w'.handlers i = some false := by
  obtain ⟨hi, rfl⟩ | ⟨hi, rfl⟩ := World.stop_cases h
  · exact ⟨hK, hi⟩
  · exact ⟨hK.joined hi, update_self ..⟩

theorem Kept.start {created : Bool} (h : w.start i created = some w') (hK : Kept w) :
    Kept w' := by
  rw [World.start] at h
  split at h
  next hi =>
    obtain ⟨sock, umem, addr, size, hw⟩ := hK.whole hi
    split at h
    next =>
      rw [hw.members_eq] at h
      cases h
      exact hK.started hi hw
    next =>
      cases h
      exact hK
  next => cases h

theorem Kept.destroy (h : w.destroy i = some w') (hK : Kept w) : Kept w' := by
  rw [World.destroy, Option.bind_eq_some_iff] at h
  obtain ⟨w₁, h₁, h⟩ := h
  obtain ⟨hK₁, hi⟩ := hK.stop h₁
  obtain ⟨sock, umem, addr, size, hw⟩ := hK₁.whole hi
  rw [Option.bind_eq_some_iff] at h
  obtain ⟨w₂, h₂, h⟩ := h
  rw [Option.map_eq_some_iff] at h
  obtain ⟨w₃, h₃, rfl⟩ := h
  have hO₁ : Opened w₁ i := hK₁.opened (by simp [hi])
  obtain ⟨low, mid, live, hB⟩ := hO₁.books
  obtain ⟨hO₂, -, hsame, hsock⟩ := hO₁.apply h₂ trivial fun _ => local_destroy hB.owned hw
  have humem : Holds w₂.inner.umems i addr size umem := by
    obtain ⟨c, huge, hbuilt⟩ := hw.holds
    exact ⟨c, huge, hsame.trans hbuilt⟩
  obtain ⟨hO₃, -, hgone, hsock₃⟩ := hO₂.umemDestroy hsock humem h₃
  exact hO₃.becomes (by simp) (.inl ⟨rfl, hgone, hsock₃⟩)

/-- **Every operation keeps the books.** -/
theorem World.step_kept {op : Op ι} (h : w.step op = some w') (hK : Kept w) : Kept w' := by
  cases op with
  | construct i cfg ans sock =>
      rw [World.step, Option.ite_none_right_eq_some] at h
      exact hK.construct h.2 (Option.isNone_iff_eq_none.mp h.1)
  | start i created => exact hK.start h
  | stop i => exact (hK.stop h).1
  | destroy i => exact hK.destroy h

theorem run_kept {ops : List (Op ι)} (hrun : run World.step World.empty ops = some w) : Kept w :=
  run_invariant (I := Kept) (fun _ _ _ hK h => World.step_kept h hK) kept_empty hrun

/-- The destructor always gets to its end. -/
theorem Kept.destroys (hK : Kept w) (hi : w.handlers i ≠ none) :
    (w.step (.destroy i)).isSome := by
  obtain ⟨w₁, h₁⟩ : ∃ w₁, w.stop i = some w₁ := by
    obtain ⟨b, hb⟩ := Option.ne_none_iff_exists'.mp hi
    rw [World.stop, hb]
    cases b
    · exact ⟨_, rfl⟩
    · exact ⟨_, rfl⟩
  obtain ⟨hK₁, hi₁⟩ := hK.stop h₁
  obtain ⟨sock, umem, addr, size, hw⟩ := hK₁.whole hi₁
  obtain ⟨cfg, huge, hbuilt⟩ := hw.holds
  rw [World.step, World.destroy, h₁]
  simp [World.apply, XdpSocket.World.step, Umem.World.step, hw.socket, hbuilt]

end Books

/-! ## Every run -/

/-- Each thread is joined once, before the socket, the handle and the
region it works on are released. -/
structure Joined (log : List (Call ι)) : Prop where
  starts : ∀ before i sock umem addr size after,
    log = before ++ .threadStart i sock umem addr size :: after →
    ∃ mid rest, after = mid ++ .threadJoin i :: rest ∧ .threadJoin i ∉ mid ∧
      .inner (.socketDelete sock) ∉ mid ∧ .inner (.umem (.xskUmemDelete umem)) ∉ mid ∧
      .inner (.umem (.munmap addr size)) ∉ mid ∧
      ∀ sock' umem' addr' size', .threadStart i sock' umem' addr' size' ∉ mid
  joins : ∀ before i after, log = before ++ .threadJoin i :: after →
    ∃ first sock umem addr size mid,
      before = first ++ .threadStart i sock umem addr size :: mid ∧ .threadJoin i ∉ mid

theorem event_release_thread {c : Call ι} {i : ι} (h : c.event = .release (.thread i)) :
    c = .threadJoin i := by
  cases c with
  | inner c =>
      rw [event_inner] at h
      cases he : c.event <;> rw [he] at h <;> cases h
  | threadStart => cases h
  | threadJoin j =>
      cases h
      rfl

theorem event_acquire_thread {c : Call ι} {i : ι} {needs : List (Resource ι)}
    (h : c.event = .acquire (.thread i) needs) :
    ∃ sock umem addr size, c = .threadStart i sock umem addr size := by
  cases c with
  | inner c =>
      rw [event_inner] at h
      cases he : c.event <;> rw [he] at h <;> cases h
  | threadStart j sock umem addr size =>
      cases h
      exact ⟨sock, umem, addr, size, rfl⟩
  | threadJoin => cases h

section Runs

variable [DecidableEq ι]

theorem joined_of_closed {log : List (Call ι)}
    (hrun : run (Lib.Ledger.step Call.event) [] log = some []) : Joined log where
  starts before i sock umem addr size after hlog := by
    rw [hlog] at hrun
    obtain ⟨mid, c, rest, rfl, hc, hmid⟩ := released_after hrun rfl
    obtain rfl := event_release_thread hc
    have hspared : ∀ d, (.inner d : Call ι) ∈ mid → ∀ r ∈ worksOn sock umem addr size,
        d.event ≠ .release r := by
      intro d hd r hr hrel
      have hno := (hmid _ hd).2.2 (.inner r) (List.mem_map_of_mem hr)
      rw [event_inner, hrel] at hno
      simp [Event.map, releases] at hno
    refine ⟨mid, rest, rfl, fun hmem => ?_, fun hmem => ?_, fun hmem => ?_, fun hmem => ?_,
      fun _ _ _ _ hmem => ?_⟩
    · simpa [Call.event, releases] using (hmid _ hmem).2.1
    · exact hspared _ hmem (.socket sock) (by simp [worksOn]) rfl
    · exact hspared _ hmem (.umem (.handle umem)) (by simp [worksOn]) rfl
    · exact hspared _ hmem (.umem (.region addr size)) (by simp [worksOn]) rfl
    · simpa [Call.event, acquires] using (hmid _ hmem).1
  joins before i after hlog := by
    rw [hlog] at hrun
    obtain ⟨first, c, mid, rfl, ⟨needs, hc⟩, hmid⟩ := acquired_before hrun rfl
    obtain ⟨sock, umem, addr, size, rfl⟩ := event_acquire_thread hc
    refine ⟨first, sock, umem, addr, size, mid, rfl, fun hmem => ?_⟩
    simpa [Call.event, releases] using (hmid _ hmem).2

variable {w : World ι}

/-- With no handler left there is no member left either. -/
theorem Kept.gone (hK : Kept w) {i : ι} (hi : w.handlers i = none) :
    w.inner.umems i = none ∧ w.inner.socks i = none := by
  rcases hK.shaped i with ⟨-, hgone⟩ | ⟨hsome, -⟩
  · exact hgone
  · exact absurd hi hsome

theorem Books.closed {low : List (Held Umem.Resource)} {mid : List (Held XdpSocket.Resource)}
    {live : List (Held (Resource ι))} (hB : Books w low mid live) (hmid : mid = [])
    (hnone : ∀ i, w.handlers i = none) : live = [] := by
  have hthreads : w.threads = [] := by
    apply List.eq_nil_iff_forall_not_mem.mpr
    intro h hh
    obtain ⟨i, -, -, -, -, -, hi, -⟩ := hB.works h hh
    rw [hnone i] at hi
    cases hi
  have hst := hB.stacked
  rw [hthreads, hmid] at hst
  exact hst.nothing

end Runs

/-- **The lifetime of handlers.** Along every sequence of constructions,
`start`s, `stop`s and destructions of `FeedHandler` objects in which no
running handler is started again, whichever constructors throw and
whichever threads cannot be created: every call is in order, and what a
running thread works on is live; an object that is not there (its
constructor threw, or it is destroyed) has left no member behind; a
destructor gets to its end, if `join` returns; and when all handlers are
gone, every thread was joined exactly once and before the socket, the
handle and the memory it works on were released, every socket was deleted
once and before its handle, every handle once and before its region, and
nothing is left. -/
theorem handler_lifetimes {ι : Type} [DecidableEq ι] (ops : List (Op ι)) (w : World ι)
    (hrun : run World.step World.empty ops = some w) :
    (∃ live, run (Lib.Ledger.step Call.event) [] w.log = some live ∧
      ∀ i, w.handlers i = some true → ∃ sock umem addr size,
        w.members i = some (sock, umem, addr, size) ∧
        ∀ r ∈ worksOn sock umem addr size, .inner r ∈ names live) ∧
    (∀ i, w.handlers i = none → w.inner.umems i = none ∧ w.inner.socks i = none) ∧
    (∀ i, w.handlers i ≠ none → (w.step (.destroy i)).isSome) ∧
    ((∀ i, w.handlers i = none) →
      Joined w.log ∧ XdpSocket.Matched (lower Call.inner? w.log) ∧
        Umem.Matched (lower XdpSocket.Call.umem? (lower Call.inner? w.log))) := by
  have hK := run_kept hrun
  obtain ⟨low, mid, live, hB⟩ := hK.books
  refine ⟨⟨live, hB.ledger, fun i hi => ?_⟩, fun i hi => hK.gone hi, fun i hi => hK.destroys hi,
    fun hnone => ?_⟩
  · obtain ⟨sock, umem, addr, size, hw⟩ := hK.whole hi
    exact ⟨sock, umem, addr, size, hw.members_eq, hB.works_live hw⟩
  · have humems : ∀ i, w.inner.umems i = none := fun i => (hK.gone (hnone i)).1
    have hmid := hB.inner.closed hB.owned humems fun i => (hK.gone (hnone i)).2
    have hledger := hB.ledger
    rw [hB.closed hmid hnone] at hledger
    have hinner := hB.inner.ledger
    rw [hmid] at hinner
    have hlow := hB.inner.umems.ledger
    rw [hB.inner.umems.nothing_live humems] at hlow
    rw [hB.calls]
    exact ⟨joined_of_closed hledger, XdpSocket.matched_of_closed hinner,
      Umem.matched_of_ledger hlow hB.inner.umems.areas⟩

/-- Two handlers at once, one started, stopped and started again and
destroyed while it runs; one whose socket cannot be created, and one that
gets no thread. -/
def twoHandlers : List (Op Bool) :=
  [.construct false {} (answersAt 4096 1) (.ok 7), .start false true,
    .construct true {} (answersAt 20971520 2) (.error (-16)), .stop false, .stop false,
    .construct true {} (answersAt 20971520 2) (.ok 8), .start true false, .start false true,
    .destroy true, .destroy false]

theorem handler_lifetimes_twoHandlers :
    ∃ w, run World.step World.empty twoHandlers = some w ∧ Joined w.log := by
  have hends : (run World.step World.empty twoHandlers).isSome := by decide +kernel
  obtain ⟨w, hw⟩ := Option.isSome_iff_exists.mp hends
  have hgone : ∀ v ∈ run World.step World.empty twoHandlers, ∀ i, v.handlers i = none := by
    decide +kernel
  obtain ⟨-, -, -, hclosed⟩ := handler_lifetimes twoHandlers w hw
  exact ⟨w, hw, (hclosed (hgone w hw)).1⟩

end UltrafastFeed.FeedHandler
