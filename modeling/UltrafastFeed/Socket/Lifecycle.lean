import UltrafastFeed.Lib.Layers
import UltrafastFeed.Lib.Table
import UltrafastFeed.Umem.Lifecycle

/-!
# Socket — Lifecycle

`XdpSocket` objects on `Umem` objects, any number of both, constructed,
moved and destroyed in any order. A socket is a resource that needs the
handle it was created on, so the ledger of `Umem` gets a layer.

"The supplied Umem must outlive this object", says the header. An
`XdpSocket` keeps a pointer to the `Umem` object, not its handle, and
nothing enforces the rule. It is exactly what is needed: `Outlives`.

SYSTEM. As for `Umem`; a socket is created with a name that is not in
use, and not on a null handle.

LEFT OUT. The rings and the configuration that a socket keeps; no
function of this module reads them.
-/

namespace UltrafastFeed.XdpSocket

open Lib.Run Lib.Ledger Function Umem

/-! ## The model -/

/-- `XdpSocketConfig`. -/
structure Config where
  iface : String
  queueId : UInt32 := 0
  rxSize : UInt64 := 2048
  txSize : UInt64 := 2048
  xdpFlags : UInt32 := 0
  /-- `XDP_USE_NEED_WAKEUP`. -/
  bindFlags : UInt16 := 8
  deriving DecidableEq, Repr

/-- `xsk_socket_config`. -/
structure XskSocketConfig where
  rxSize : UInt32
  txSize : UInt32
  libbpfFlags : UInt32
  xdpFlags : UInt32
  bindFlags : UInt16
  deriving DecidableEq, Repr

def Config.xskConfig (cfg : Config) : XskSocketConfig where
  rxSize := cfg.rxSize.toUInt32
  txSize := cfg.txSize.toUInt32
  libbpfFlags := 0
  xdpFlags := cfg.xdpFlags
  bindFlags := cfg.bindFlags

/-- A call that succeeded. -/
inductive Call where
  | umem (c : SysCall)
  | socketCreate (sock : Nat) (iface : String) (queueId : UInt32) (umem : Nat)
      (cfg : XskSocketConfig)
  | socketDelete (sock : Nat)
  deriving DecidableEq, Repr

/-- What the message of the exception names. -/
structure CreateError where
  iface : String
  queueId : UInt32
  err : Int
  deriving DecidableEq, Repr

/-- `umem_`, as the object it points to, and `socket_`. -/
structure SocketObject (ι : Type) where
  umem : ι
  socket : Option Nat
  deriving DecidableEq, Repr

/-- What `xsk_socket__create` returns for a null handle. -/
def efault : Int := -14

/-- `create_socket`, on the handle of the `Umem`. -/
def createSocket (cfg : Config) (handle : Option Nat) (ans : Except Int Nat) :
    Except CreateError Nat × List Call :=
  match handle, ans with
  | some umem, .ok sock =>
      (.ok sock, [.socketCreate sock cfg.iface cfg.queueId umem cfg.xskConfig])
  | some _, .error err => (.error ⟨cfg.iface, cfg.queueId, err⟩, [])
  | none, _ => (.error ⟨cfg.iface, cfg.queueId, efault⟩, [])

section Object

variable {ι : Type}

/-- `close_socket`. -/
def SocketObject.closeSocket (o : SocketObject ι) : SocketObject ι × List Call :=
  match o.socket with
  | none => (o, [])
  | some sock => ({ o with socket := none }, [.socketDelete sock])

/-- `XdpSocket::XdpSocket(XdpSocket&&)`: the new object and `other`. -/
def SocketObject.moveConstruct (other : SocketObject ι) : SocketObject ι × SocketObject ι :=
  (⟨other.umem, other.socket⟩, { other with socket := none })

/-- `XdpSocket::operator=(XdpSocket&&)` on two different objects. -/
def SocketObject.moveAssign (o other : SocketObject ι) :
    (SocketObject ι × SocketObject ι) × List Call :=
  let (o', calls) := o.closeSocket
  (({ o' with umem := other.umem, socket := other.socket }, { other with socket := none }), calls)

/-- `XdpSocket::~XdpSocket`. -/
def SocketObject.destroy (o : SocketObject ι) : List Call := o.closeSocket.2

end Object

inductive Resource where
  | umem (r : Umem.Resource)
  | socket (sock : Nat)
  deriving DecidableEq, Repr

def Call.event : Call → Event Resource
  | .umem c => c.event.map .umem
  | .socketCreate sock _ _ handle _ => .acquire (.socket sock) [.umem (.handle handle)]
  | .socketDelete sock => .release (.socket sock)

/-- A call on a `Umem` object. -/
def Call.umem? : Call → Option SysCall
  | .umem c => some c
  | _ => none

/-- The open sockets, each with its handle, after a call. -/
def opens (opened : List (Nat × Nat)) : Call → List (Nat × Nat)
  | .umem _ => opened
  | .socketCreate sock _ _ umem _ => (sock, umem) :: opened
  | .socketDelete sock => opened.filter fun p => p.1 ≠ sock

structure World (ι κ : Type) where
  umems : ι → Option UmemObject
  socks : κ → Option (SocketObject ι)
  log : List Call

/-- The calls on `Umem` objects. -/
def World.umemLog {ι κ : Type} (w : World ι κ) : List SysCall := lower Call.umem? w.log

def World.empty {ι κ : Type} : World ι κ := ⟨fun _ => none, fun _ => none, []⟩

def World.opened {ι κ : Type} (w : World ι κ) : List (Nat × Nat) := w.log.foldl opens []

/-- Operations on `Umem` objects `ι` and `XdpSocket` objects `κ`. -/
inductive Op (ι κ : Type) where
  | umem (e : Life ι)
  | construct (k : κ) (i : ι) (cfg : Config) (ans : Except Int Nat)
  | moveConstruct (dst src : κ)
  | moveAssign (dst src : κ)
  | destroy (k : κ)

/-- The answer names no open socket. -/
def FreshSocket (opened : List (Nat × Nat)) : Except Int Nat → Prop
  | .ok sock => sock ∉ opened.map Prod.fst
  | .error _ => True

instance (opened : List (Nat × Nat)) : (ans : Except Int Nat) → Decidable (FreshSocket opened ans)
  | .ok sock => inferInstanceAs (Decidable (sock ∉ opened.map Prod.fst))
  | .error _ => .isTrue trivial

variable {ι κ : Type}

def World.step [DecidableEq ι] [DecidableEq κ] (w : World ι κ) : Op ι κ → Option (World ι κ)
  | .umem e =>
      (Umem.World.step ⟨w.umems, w.umemLog⟩ e).map fun v =>
        { w with
          umems := v.objs
          log := w.log ++ (v.log.drop w.umemLog.length).map .umem }
  | .construct k i cfg ans =>
      match w.socks k, w.umems i with
      | none, some o =>
          if FreshSocket w.opened ans then
            match createSocket cfg o.umem ans with
            | (.ok sock, calls) =>
                some { w with
                  socks := update w.socks k (some ⟨i, some sock⟩), log := w.log ++ calls }
            | (.error _, calls) => some { w with log := w.log ++ calls }
          else none
      | _, _ => none
  | .moveConstruct dst src =>
      match w.socks dst, w.socks src with
      | none, some other =>
          let (o, other') := other.moveConstruct
          some { w with socks := update (update w.socks dst (some o)) src (some other') }
      | _, _ => none
  | .moveAssign dst src =>
      match w.socks dst, w.socks src with
      | some o, some other =>
          if dst = src then some w
          else
            let ((o', other'), calls) := o.moveAssign other
            some { w with
              socks := update (update w.socks dst (some o')) src (some other')
              log := w.log ++ calls }
      | _, _ => none
  | .destroy k =>
      match w.socks k with
      | some o => some { w with socks := update w.socks k none, log := w.log ++ o.destroy }
      | none => none

/-- The `Umem` object that an operation deletes the handle of. -/
def tearsDown [DecidableEq ι] : Life ι → Option ι
  | .destroy i => some i
  | .moveAssign dst src => if dst = src then none else some dst
  | _ => none

/-- No `Umem` goes while a socket on its handle is open. -/
def Outlives [DecidableEq ι] (w : World ι κ) : Op ι κ → Prop
  | .umem e => ∀ i ∈ tearsDown e, ∀ o ∈ w.umems i, ∀ umem ∈ o.umem,
      umem ∉ w.opened.map Prod.snd
  | _ => True

instance [DecidableEq ι] (w : World ι κ) : (op : Op ι κ) → Decidable (Outlives w op)
  | .umem e => inferInstanceAs (Decidable (∀ i ∈ tearsDown e, ∀ o ∈ w.umems i,
      ∀ umem ∈ o.umem, umem ∉ w.opened.map Prod.snd))
  | .construct .. => .isTrue trivial
  | .moveConstruct .. => .isTrue trivial
  | .moveAssign .. => .isTrue trivial
  | .destroy .. => .isTrue trivial

/-! ## Logs -/

theorem umem?_umem (c : SysCall) : Call.umem? (.umem c) = some c := rfl

theorem opens_umem (opened : List (Nat × Nat)) (c : SysCall) : opens opened (.umem c) = opened :=
  rfl

/-- A socket and what it needs, for the ledger. -/
def heldSocket (p : Nat × Nat) : Held Resource := ⟨.socket p.1, [.umem (.handle p.2)]⟩

def heldSockets (opened : List (Nat × Nat)) : List (Held Resource) := opened.map heldSocket

theorem mem_names_heldSockets {opened : List (Nat × Nat)} {sock : Nat} :
    .socket sock ∈ names (heldSockets opened) ↔ sock ∈ opened.map Prod.fst := by
  simp [names, heldSockets, heldSocket]

theorem heldSockets_filter (opened : List (Nat × Nat)) (sock : Nat) :
    (heldSockets opened).filter (fun h => h.res ≠ .socket sock)
      = heldSockets (opened.filter fun p => p.1 ≠ sock) := by
  rw [heldSockets, heldSockets, List.filter_map]
  congr 1
  apply List.filter_congr
  intro p _
  simp [heldSocket]

/-! ## What the operations do -/

/-- What a move leaves of its source. -/
def SocketObject.movedFrom (o : SocketObject ι) : SocketObject ι := { o with socket := none }

/-- Move assignment closes the target's socket as the destructor does. -/
theorem SocketObject.moveAssign_eq (o other : SocketObject ι) :
    o.moveAssign other = ((other, other.movedFrom), o.destroy) := by
  rw [SocketObject.moveAssign, SocketObject.destroy, SocketObject.closeSocket]
  cases o.socket <;> rfl

section Umems

variable [DecidableEq ι] {v v' : Umem.World ι} {e : Life ι}

theorem mem_destroy {o : UmemObject} {umem : Nat} (h : .xskUmemDelete umem ∈ o.destroy) :
    o.umem = some umem := by
  rw [UmemObject.destroy, UmemObject.deallocateRegion, UmemObject.deallocateRegion] at h
  cases hu : o.umem <;> cases hr : o.region <;> simp_all

theorem destroy_of_umem {o : UmemObject} {umem : Nat} (h : o.umem = some umem) :
    ∃ rest, o.destroy = .xskUmemDelete umem :: rest := by
  rw [UmemObject.destroy, h]
  exact ⟨_, rfl⟩

/-- Only an object that is torn down has its handle deleted. -/
theorem umem_step_calls (h : v.step e = some v') :
    ∃ calls, v'.log = v.log ++ calls ∧
      (∀ i o, tearsDown e = some i → v.objs i = some o → calls = o.destroy) ∧
      ∀ umem, .xskUmemDelete umem ∈ calls →
        ∃ i o, tearsDown e = some i ∧ v.objs i = some o ∧ o.umem = some umem := by
  cases e with
  | construct i cfg ans =>
      obtain ⟨-, rfl | ⟨addr, size, huge, -, rfl | ⟨umem, -, rfl⟩⟩⟩ :=
        Umem.World.step_construct h
      · exact ⟨[], by simp, by simp [tearsDown], by simp⟩
      · exact ⟨_, rfl, by simp [tearsDown], by simp⟩
      · exact ⟨_, rfl, by simp [tearsDown], by simp⟩
  | moveConstruct dst src =>
      obtain ⟨-, other, -, rfl⟩ := Umem.World.step_moveConstruct h
      exact ⟨[], by simp, by simp [tearsDown], by simp⟩
  | moveAssign dst src =>
      obtain ⟨o, other, hdst, -, ⟨heq, rfl⟩ | ⟨hne, rfl⟩⟩ := Umem.World.step_moveAssign h
      · exact ⟨[], by simp, by simp [tearsDown, heq], by simp⟩
      · refine ⟨o.destroy, rfl, fun i p hi hp => ?_, fun umem hmem => ?_⟩
        · rw [tearsDown, if_neg hne] at hi
          cases hi
          rw [hdst] at hp
          cases hp
          rfl
        · exact ⟨dst, o, if_neg hne, hdst, mem_destroy hmem⟩
  | destroy i =>
      obtain ⟨o, hi, rfl⟩ := Umem.World.step_destroy h
      refine ⟨o.destroy, rfl, fun j p hj hp => ?_, fun umem hmem => ?_⟩
      · cases hj
        rw [hi] at hp
        cases hp
        rfl
      · exact ⟨i, o, rfl, hi, mem_destroy hmem⟩

end Umems

section Steps

variable [DecidableEq ι] [DecidableEq κ] {w w' : World ι κ}

theorem World.step_umem {e : Life ι} (h : w.step (.umem e) = some w') :
    ∃ v calls, Umem.World.step ⟨w.umems, w.umemLog⟩ e = some v ∧
      v.log = w.umemLog ++ calls ∧
      w' = ⟨v.objs, w.socks, w.log ++ calls.map .umem⟩ ∧
      (∀ i o, tearsDown e = some i → w.umems i = some o → calls = o.destroy) ∧
      ∀ umem, .xskUmemDelete umem ∈ calls →
        ∃ i o, tearsDown e = some i ∧ w.umems i = some o ∧ o.umem = some umem := by
  rw [World.step, Option.map_eq_some_iff] at h
  obtain ⟨v, hv, rfl⟩ := h
  obtain ⟨calls, hlog, hdown, hdel⟩ := umem_step_calls hv
  refine ⟨v, calls, hv, hlog, ?_, hdown, hdel⟩
  dsimp only at hlog ⊢
  rw [hlog, List.drop_left]

theorem World.step_construct {k : κ} {i : ι} {cfg : Config} {ans : Except Int Nat}
    (h : w.step (.construct k i cfg ans) = some w') :
    w.socks k = none ∧ ∃ o, w.umems i = some o ∧
      (w' = w ∨ ∃ sock umem, o.umem = some umem ∧ sock ∉ w.opened.map Prod.fst ∧
        w' = { w with
          socks := update w.socks k (some ⟨i, some sock⟩)
          log := w.log
            ++ [.socketCreate sock cfg.iface cfg.queueId umem cfg.xskConfig] }) := by
  simp only [World.step] at h
  split at h
  next o hk hi =>
    refine ⟨hk, o, hi, ?_⟩
    rw [Option.ite_none_right_eq_some] at h
    obtain ⟨hfresh, h⟩ := h
    cases hu : o.umem with
    | none =>
        rw [hu, createSocket] at h
        cases h
        simp
    | some umem =>
        cases ans with
        | error err =>
            rw [hu, createSocket] at h
            cases h
            simp
        | ok sock =>
            rw [hu, createSocket] at h
            cases h
            exact .inr ⟨sock, umem, rfl, hfresh, rfl⟩
  next => cases h

theorem World.step_moveConstruct {dst src : κ} (h : w.step (.moveConstruct dst src) = some w') :
    w.socks dst = none ∧ ∃ other, w.socks src = some other ∧
      w' = { w with
        socks := update (update w.socks dst (some other)) src (some other.movedFrom) } := by
  simp only [World.step] at h
  split at h
  next other hdst hsrc => exact ⟨hdst, other, hsrc, (Option.some.inj h).symm⟩
  next => cases h

theorem World.step_moveAssign {dst src : κ} (h : w.step (.moveAssign dst src) = some w') :
    ∃ o other, w.socks dst = some o ∧ w.socks src = some other ∧
      (dst = src ∧ w' = w ∨
        dst ≠ src ∧ w' = { w with
          socks := update (update w.socks dst (some other)) src (some other.movedFrom)
          log := w.log ++ o.destroy }) := by
  simp only [World.step] at h
  split at h
  next o other hdst hsrc =>
    refine ⟨o, other, hdst, hsrc, ?_⟩
    split at h
    next heq => exact .inl ⟨heq, (Option.some.inj h).symm⟩
    next hne =>
      rw [SocketObject.moveAssign_eq] at h
      exact .inr ⟨hne, (Option.some.inj h).symm⟩
  next => cases h

theorem World.step_destroy {k : κ} (h : w.step (.destroy k) = some w') :
    ∃ o, w.socks k = some o ∧
      w' = { w with socks := update w.socks k none, log := w.log ++ o.destroy } := by
  simp only [World.step] at h
  split at h
  next o hk => exact ⟨o, hk, (Option.some.inj h).symm⟩
  next => cases h

end Steps

/-! ## Owners -/

/-- `sock` is the socket of object `k`. -/
def Has (socks : κ → Option (SocketObject ι)) (k : κ) (sock : Nat) : Prop :=
  ∃ o, socks k = some o ∧ o.socket = some sock

/-- What an object has in the table of the open sockets. -/
def holding (o : Option (SocketObject ι)) : Option (Nat × Unit) :=
  o.bind fun o => o.socket.map fun sock => (sock, ())

def openTable (opened : List (Nat × Nat)) (sock : Nat) : Option Unit :=
  if sock ∈ opened.map Prod.fst then some () else none

/-- Each open socket is that of exactly one object, and an object has an
open socket or none. -/
structure Owned (socks : κ → Option (SocketObject ι)) (opened : List (Nat × Nat)) : Prop where
  table : Lib.Table.Owned (holding ∘ socks) (openTable opened)
  nodup : (opened.map Prod.fst).Nodup

section Owners

variable {socks : κ → Option (SocketObject ι)} {opened : List (Nat × Nat)} {j k dst src : κ}
  {o other : SocketObject ι} {new : Option (SocketObject ι)} {sock : Nat}

theorem holding_eq_some :
    (holding ∘ socks) k = some (sock, ()) ↔ Has socks k sock := by
  simp [holding, Has, Option.bind_eq_some_iff]

theorem openTable_eq_some : openTable opened sock = some () ↔ sock ∈ opened.map Prod.fst := by
  simp [openTable]

theorem openTable_eq_none : openTable opened sock = none ↔ sock ∉ opened.map Prod.fst := by
  simp [openTable]

theorem openTable_cons (opened : List (Nat × Nat)) (sock umem : Nat) :
    openTable ((sock, umem) :: opened) = update (openTable opened) sock (some ()) := by
  funext s
  by_cases hs : s = sock
  · rw [hs, update_self]
    exact openTable_eq_some.mpr List.mem_cons_self
  · rw [update_of_ne hs, openTable, openTable, List.map_cons]
    exact if_congr (by simp [hs]) rfl rfl

theorem openTable_filter (opened : List (Nat × Nat)) (sock : Nat) :
    openTable (opened.filter fun p => p.1 ≠ sock) = update (openTable opened) sock none := by
  funext s
  by_cases hs : s = sock
  · rw [hs, update_self]
    exact openTable_eq_none.mpr (by simp)
  · rw [update_of_ne hs, openTable, openTable]
    exact if_congr (by simp [hs]) rfl rfl

theorem owned_empty : Owned (fun _ : κ => (none : Option (SocketObject ι))) [] where
  table := Lib.Table.owned_empty
  nodup := List.nodup_nil

theorem Owned.has (h : Owned socks opened) (hk : Has socks k sock) :
    sock ∈ opened.map Prod.fst :=
  openTable_eq_some.mp (h.table.present k sock () (holding_eq_some.mpr hk))

theorem Owned.distinct (h : Owned socks opened) (hj : Has socks j sock) (hk : Has socks k sock) :
    j = k :=
  h.table.distinct j k sock () () (holding_eq_some.mpr hj) (holding_eq_some.mpr hk)

theorem Owned.owner (h : Owned socks opened) (hsock : sock ∈ opened.map Prod.fst) :
    ∃ k, Has socks k sock := by
  obtain ⟨k, hk⟩ := h.table.owner sock () (openTable_eq_some.mpr hsock)
  exact ⟨k, holding_eq_some.mp hk⟩

variable [DecidableEq κ]

/-- A socket is created. -/
theorem Owned.create (h : Owned socks opened) (hk : socks k = none)
    (hnew : sock ∉ opened.map Prod.fst) (i : ι) (umem : Nat) :
    Owned (update socks k (some ⟨i, some sock⟩)) ((sock, umem) :: opened) where
  table := by
    rw [comp_update, openTable_cons]
    exact h.table.opens (congrArg holding hk) (openTable_eq_none.mpr hnew) ()
  nodup := List.nodup_cons.mpr ⟨hnew, h.nodup⟩

theorem SocketObject.destroy_none (hs : o.socket = none) : o.destroy = [] := by
  rw [SocketObject.destroy, SocketObject.closeSocket, hs]

theorem SocketObject.destroy_some (hs : o.socket = some sock) :
    o.destroy = [.socketDelete sock] := by
  rw [SocketObject.destroy, SocketObject.closeSocket, hs]

/-- **The socket of an object is closed**, and the object goes. -/
theorem Owned.close (h : Owned socks opened) (hk : socks k = some o) :
    Owned (update socks k none) (o.destroy.foldl opens opened) := by
  have hheld : (holding ∘ socks) k = o.socket.map fun sock => (sock, ()) := congrArg holding hk
  cases hs : o.socket with
  | none =>
      rw [hs] at hheld
      rw [SocketObject.destroy_none hs]
      refine ⟨?_, h.nodup⟩
      -- nothing of the object is in the table
      have hsame : holding ∘ update socks k none = holding ∘ socks := by
        rw [comp_update, update_eq_self_iff]
        exact hheld.symm
      rw [hsame]
      exact h.table
  | some sock =>
      rw [hs] at hheld
      rw [SocketObject.destroy_some hs]
      refine ⟨?_, (List.filter_sublist.map _).nodup h.nodup⟩
      rw [comp_update, List.foldl_cons, List.foldl_nil, opens, openTable_filter]
      exact h.table.closes hheld

/-- **A move** renames the owner. -/
theorem Owned.move (h : Owned socks opened) (hdst : socks dst = none)
    (hsrc : socks src = some other) :
    Owned (update (update socks dst (some other)) src (some other.movedFrom)) opened where
  table := by
    rw [comp_update, comp_update, ← hsrc]
    exact h.table.moves (congrArg holding hdst) src
  nodup := h.nodup

end Owners

/-- **Every operation keeps the owners**, whether or not a `Umem` outlives
its sockets. -/
theorem World.step_owned [DecidableEq ι] [DecidableEq κ] {w w' : World ι κ} {op : Op ι κ}
    (h : w.step op = some w') (hO : Owned w.socks w.opened) : Owned w'.socks w'.opened := by
  cases op with
  | umem e =>
      obtain ⟨v, calls, -, -, rfl, -⟩ := World.step_umem h
      rw [World.opened, List.foldl_append, foldl_lifted opens_umem]
      exact hO
  | construct k i cfg ans =>
      obtain ⟨hk, o, -, rfl | ⟨sock, umem, -, hnew, rfl⟩⟩ := World.step_construct h
      · exact hO
      · rw [World.opened, List.foldl_append]
        exact hO.create hk hnew i umem
  | moveConstruct dst src =>
      obtain ⟨hdst, other, hsrc, rfl⟩ := World.step_moveConstruct h
      exact hO.move hdst hsrc
  | moveAssign dst src =>
      obtain ⟨o, other, hdst, hsrc, ⟨-, rfl⟩ | ⟨hne, rfl⟩⟩ := World.step_moveAssign h
      · exact hO
      · rw [World.opened, List.foldl_append]
        have hclosed : Owned (update w.socks dst none) (o.destroy.foldl opens w.opened) :=
          hO.close hdst
        have hmoved := hclosed.move (update_self ..) ((update_of_ne hne.symm ..).trans hsrc)
        rw [update_idem] at hmoved
        exact hmoved
  | destroy k =>
      obtain ⟨o, hk, rfl⟩ := World.step_destroy h
      rw [World.opened, List.foldl_append]
      exact hO.close hk

/-! ## The ledger -/

/-- The books of the whole: those of the `Umem` objects, and on top the
open sockets. -/
structure Sound (w : World ι κ) (low : List (Held Umem.Resource)) (live : List (Held Resource)) :
    Prop where
  umems : Umem.Inv w.umems w.umemLog low
  ledger : run (Lib.Ledger.step Call.event) [] w.log = some live
  stacked : Stacked Resource.umem low (heldSockets w.opened) live

theorem event_umem (c : SysCall) : Call.event (.umem c) = c.event.map .umem := rfl

theorem umem_injective : Injective Resource.umem := fun _ _ h => Resource.umem.inj h

section Ledger

variable {w w' : World ι κ} {low : List (Held Umem.Resource)} {live : List (Held Resource)}

theorem sound_empty : Sound (World.empty : World ι κ) [] [] where
  umems := Umem.inv_empty
  ledger := rfl
  stacked := stacked_nil _

/-- A socket is created on the handle of an object. -/
theorem Sound.create (hS : Sound w low live) {i : ι} {o : UmemObject} {umem sock : Nat}
    (hi : w.umems i = some o) (hu : o.umem = some umem) (hnew : sock ∉ w.opened.map Prod.fst)
    (iface : String) (queueId : UInt32) (cfg : XskSocketConfig)
    (socks : κ → Option (SocketObject ι)) :
    ∃ live', Sound ⟨w.umems, socks,
      w.log ++ [.socketCreate sock iface queueId umem cfg]⟩ low live' := by
  have hhandle : Umem.Resource.handle umem ∈ names low := by
    rcases hS.umems.shape i o hi with ⟨addr, size, u, hholds⟩ | hempty
    · obtain ⟨c, huge, hbuilt⟩ := id hholds
      rw [hi] at hbuilt
      cases hbuilt
      cases hu
      exact mem_names.mpr ⟨_, hS.umems.holds i addr size umem hholds _ (mem_held.mpr (.inr rfl)),
        rfl⟩
    · rw [hempty.umem] at hu
      cases hu
  have hneeds : ∀ n ∈ [Resource.umem (.handle umem)], n ∈ names live := by
    intro n hn
    rw [List.mem_singleton.mp hn]
    exact (hS.stacked.mem_names_low umem_injective).mpr hhandle
  obtain ⟨live', hpost, hst⟩ := hS.stacked.acquire (s := .socket sock) (by simp)
    (mt mem_names_heldSockets.mp hnew) hneeds
  refine ⟨live', ?_, ?_, ?_⟩
  · rw [World.umemLog, lower_concat rfl]
    exact hS.umems
  · exact run_append.mpr ⟨live, hS.ledger, run_cons.mpr ⟨live', hpost, rfl⟩⟩
  · rw [World.opened, List.foldl_append]
    exact hst

/-- The socket of an object is closed. -/
theorem Sound.close (hS : Sound w low live) (hO : Owned w.socks w.opened) {k : κ}
    {o : SocketObject ι} (hk : w.socks k = some o) (socks : κ → Option (SocketObject ι)) :
    ∃ live', Sound ⟨w.umems, socks, w.log ++ o.destroy⟩ low live' := by
  cases hs : o.socket with
  | none =>
      rw [SocketObject.destroy_none hs, List.append_nil]
      exact ⟨live, hS.umems, hS.ledger, hS.stacked⟩
  | some sock =>
      obtain ⟨live', hpost, hst⟩ := hS.stacked.release (s := .socket sock) (by simp)
        (mem_names_heldSockets.mpr (hO.has ⟨o, hk, hs⟩)) (fun h hh => by
          obtain ⟨p, -, rfl⟩ := List.mem_map.mp hh
          simp [heldSocket])
      rw [SocketObject.destroy_some hs]
      refine ⟨live', ?_, ?_, ?_⟩
      · rw [World.umemLog, lower_concat rfl]
        exact hS.umems
      · exact run_append.mpr ⟨live, hS.ledger, run_cons.mpr ⟨live', hpost, rfl⟩⟩
      · rw [heldSockets_filter] at hst
        rw [World.opened, List.foldl_append]
        exact hst

variable [DecidableEq ι] [DecidableEq κ]

/-- An operation on a `Umem` that outlives its sockets. -/
theorem Sound.umem {e : Life ι} (hS : Sound w low live) (h : w.step (.umem e) = some w')
    (hout : Outlives w (.umem e)) : ∃ low' live', Sound w' low' live' := by
  obtain ⟨v, calls, hv, hlog, rfl, -, hdel⟩ := World.step_umem h
  obtain ⟨low', hI⟩ := Umem.World.step_inv hv ⟨low, hS.umems⟩
  have hlow : run (Lib.Ledger.step SysCall.event) low calls = some low' :=
    run_rest hS.umems.ledger (hlog ▸ hI.ledger)
  have hfree : ∀ c ∈ calls, ∀ r, c.event = .release r →
      ∀ s ∈ heldSockets w.opened, Resource.umem r ∉ s.needs := by
    intro c hc r hr s hs hneeds
    obtain ⟨p, hp, rfl⟩ := List.mem_map.mp hs
    cases List.mem_singleton.mp hneeds
    -- a deleted handle is that of an object that is torn down
    obtain rfl := SysCall.event_release_handle hr
    obtain ⟨i, o, hi, ho, hu⟩ := hdel _ hc
    exact hout i hi o ho _ hu (List.mem_map_of_mem hp)
  obtain ⟨live', hlive, hst⟩ : ∃ live',
      run (Lib.Ledger.step Call.event) live (calls.map .umem) = some live' ∧
        Stacked Resource.umem low' (heldSockets w.opened) live' :=
    hS.stacked.run_low event_umem umem_injective hlow hfree
  refine ⟨low', live', ?_, run_append.mpr ⟨live, hS.ledger, hlive⟩, ?_⟩
  · rw [World.umemLog, lower_append, lower_lifted umem?_umem]
    exact hlog ▸ hI
  · rw [World.opened, List.foldl_append, foldl_lifted opens_umem]
    exact hst

/-- **Every operation keeps the books**, if no `Umem` goes before its
sockets. -/
theorem World.step_sound {op : Op ι κ} (h : w.step op = some w') (hout : Outlives w op)
    (hO : Owned w.socks w.opened) (hS : Sound w low live) :
    ∃ low' live', Sound w' low' live' := by
  cases op with
  | umem e => exact hS.umem h hout
  | construct k i cfg ans =>
      obtain ⟨-, o, hi, rfl | ⟨sock, umem, hu, hnew, rfl⟩⟩ := World.step_construct h
      · exact ⟨low, live, hS⟩
      · exact ⟨low, hS.create hi hu hnew _ _ _ _⟩
  | moveConstruct dst src =>
      obtain ⟨-, other, -, rfl⟩ := World.step_moveConstruct h
      exact ⟨low, live, hS.umems, hS.ledger, hS.stacked⟩
  | moveAssign dst src =>
      obtain ⟨o, other, hdst, -, ⟨-, rfl⟩ | ⟨-, rfl⟩⟩ := World.step_moveAssign h
      · exact ⟨low, live, hS⟩
      · exact ⟨low, hS.close hO hdst _⟩
  | destroy k =>
      obtain ⟨o, hk, rfl⟩ := World.step_destroy h
      exact ⟨low, hS.close hO hk _⟩

end Ledger

/-! ## A `Umem` that goes too early -/

theorem acquires_socket (e : Event Umem.Resource) (sock : Nat) :
    acquires (.socket sock) (e.map Resource.umem) = false ∧
      releases (.socket sock) (e.map Resource.umem) = false := by
  cases e <;> simp [Event.map, acquires, releases]

/-- In a log that the ledger accepts the open sockets are live. -/
theorem opened_live {log : List Call} {live live' : List (Held Resource)} {l : List (Nat × Nat)}
    (hrun : run (Lib.Ledger.step Call.event) live log = some live')
    (hl : ∀ p ∈ l, heldSocket p ∈ live) : ∀ p ∈ log.foldl opens l, heldSocket p ∈ live' := by
  induction log generalizing live l with
  | nil =>
      rw [run_nil] at hrun
      cases hrun
      exact hl
  | cons c log ih =>
      obtain ⟨next, hnext, hrest⟩ := run_cons.mp hrun
      cases c with
      | umem c =>
          apply ih hrest
          intro p hp
          obtain ⟨hacq, hrel⟩ := acquires_socket c.event p.1
          exact (post_other hnext hacq hrel).mpr (hl p hp)
      | socketCreate sock iface queueId umem cfg =>
          obtain ⟨-, rfl⟩ := post_acquire.mp hnext
          apply ih hrest
          intro p hp
          rcases List.mem_cons.mp hp with rfl | hp
          · exact List.mem_cons_self
          · exact List.mem_cons_of_mem _ (hl p hp)
      | socketDelete sock =>
          obtain ⟨-, rfl⟩ := post_release.mp hnext
          apply ih hrest
          intro p hp
          obtain ⟨hp, hne⟩ := List.mem_filter.mp hp
          refine mem_filter_ne.mpr ⟨hl p hp, fun heq => ?_⟩
          cases heq
          simp at hne

section Fatal

variable [DecidableEq ι] [DecidableEq κ] {w w' : World ι κ} {op : Op ι κ}

theorem World.step_log (h : w.step op = some w') : ∃ calls, w'.log = w.log ++ calls := by
  cases op with
  | umem e =>
      obtain ⟨v, calls, -, -, rfl, -⟩ := World.step_umem h
      exact ⟨_, rfl⟩
  | construct k i cfg ans =>
      obtain ⟨-, o, -, rfl | ⟨sock, umem, -, -, rfl⟩⟩ := World.step_construct h
      · exact ⟨[], by simp⟩
      · exact ⟨_, rfl⟩
  | moveConstruct dst src =>
      obtain ⟨-, other, -, rfl⟩ := World.step_moveConstruct h
      exact ⟨[], by simp⟩
  | moveAssign dst src =>
      obtain ⟨o, other, -, -, ⟨-, rfl⟩ | ⟨-, rfl⟩⟩ := World.step_moveAssign h
      · exact ⟨[], by simp⟩
      · exact ⟨_, rfl⟩
  | destroy k =>
      obtain ⟨o, -, rfl⟩ := World.step_destroy h
      exact ⟨_, rfl⟩

/-- What the ledger has refused it refuses for good. -/
theorem World.step_refused (h : w.step op = some w')
    (hno : run (Lib.Ledger.step Call.event) [] w.log = none) :
    run (Lib.Ledger.step Call.event) [] w'.log = none := by
  obtain ⟨calls, hlog⟩ := World.step_log h
  rw [Option.eq_none_iff_forall_ne_some]
  intro live hlive
  rw [hlog] at hlive
  obtain ⟨mid, hmid, -⟩ := run_append.mp hlive
  rw [hno] at hmid
  cases hmid

/-- **Deleting a handle under an open socket** is refused. -/
theorem World.step_fatal (h : w.step op = some w') (hout : ¬ Outlives w op) :
    run (Lib.Ledger.step Call.event) [] w'.log = none := by
  cases op with
  | umem e =>
      obtain ⟨v, calls, -, -, rfl, hdown, -⟩ := World.step_umem h
      rw [Outlives] at hout
      push Not at hout
      obtain ⟨i, hi, o, ho, umem, hu, hmem⟩ := hout
      obtain ⟨p, hp, rfl⟩ := List.mem_map.mp hmem
      obtain ⟨rest, hrest⟩ := destroy_of_umem hu
      rw [hdown i o hi ho, hrest, Option.eq_none_iff_forall_ne_some]
      intro live hlive
      obtain ⟨mid, hmid, next, hnext, -⟩ := run_at hlive
      have hlive := opened_live hmid (l := []) (by simp) p hp
      exact (post_release.mp hnext).1.2 _ hlive List.mem_cons_self
  | construct k i cfg ans => exact absurd trivial hout
  | moveConstruct dst src => exact absurd trivial hout
  | moveAssign dst src => exact absurd trivial hout
  | destroy k => exact absurd trivial hout

end Fatal

/-! ## Every run -/

/-- Each socket is deleted once, before its handle is. -/
structure Matched (log : List Call) : Prop where
  creates : ∀ before sock iface queueId umem cfg after,
    log = before ++ .socketCreate sock iface queueId umem cfg :: after →
    ∃ mid rest, after = mid ++ .socketDelete sock :: rest ∧ .socketDelete sock ∉ mid ∧
      .umem (.xskUmemDelete umem) ∉ mid ∧
      ∀ iface' queueId' umem' cfg', .socketCreate sock iface' queueId' umem' cfg' ∉ mid
  deletes : ∀ before sock after, log = before ++ .socketDelete sock :: after →
    ∃ first iface queueId umem cfg mid,
      before = first ++ .socketCreate sock iface queueId umem cfg :: mid ∧
      .socketDelete sock ∉ mid

theorem event_release_socket {c : Call} {sock : Nat} (h : c.event = .release (.socket sock)) :
    c = .socketDelete sock := by
  cases c with
  | umem c => cases c <;> cases h
  | socketCreate => cases h
  | socketDelete s =>
      cases h
      rfl

theorem event_acquire_socket {c : Call} {sock : Nat} {needs : List Resource}
    (h : c.event = .acquire (.socket sock) needs) :
    ∃ iface queueId umem cfg, c = .socketCreate sock iface queueId umem cfg := by
  cases c with
  | umem c => cases c <;> cases h
  | socketCreate s iface queueId umem cfg =>
      cases h
      exact ⟨iface, queueId, umem, cfg, rfl⟩
  | socketDelete => cases h

theorem matched_of_closed {log : List Call}
    (hrun : run (Lib.Ledger.step Call.event) [] log = some []) : Matched log where
  creates before sock iface queueId umem cfg after hlog := by
    rw [hlog] at hrun
    obtain ⟨mid, c, rest, rfl, hc, hmid⟩ := released_after hrun rfl
    obtain rfl := event_release_socket hc
    refine ⟨mid, rest, rfl, fun hmem => ?_, fun hmem => ?_, fun _ _ _ _ hmem => ?_⟩
    · simpa [Call.event, releases] using (hmid _ hmem).2.1
    · simpa [Call.event, SysCall.event, Event.map, releases]
        using (hmid _ hmem).2.2 (.umem (.handle umem)) (by simp)
    · simpa [Call.event, acquires] using (hmid _ hmem).1
  deletes before sock after hlog := by
    rw [hlog] at hrun
    obtain ⟨first, c, mid, rfl, ⟨needs, hc⟩, hmid⟩ := acquired_before hrun rfl
    obtain ⟨iface, queueId, umem, cfg, rfl⟩ := event_acquire_socket hc
    refine ⟨first, iface, queueId, umem, cfg, mid, rfl, fun hmem => ?_⟩
    simpa [Call.event, releases] using (hmid _ hmem).2

section Runs

variable {w : World ι κ}

theorem Sound.closed {low : List (Held Umem.Resource)} {live : List (Held Resource)}
    (hS : Sound w low live) (hO : Owned w.socks w.opened) (humems : ∀ i, w.umems i = none)
    (hsocks : ∀ k, w.socks k = none) : live = [] := by
  have hopened : w.opened = [] := by
    apply List.eq_nil_iff_forall_not_mem.mpr
    intro p hp
    obtain ⟨k, o, hk, -⟩ := hO.owner (List.mem_map_of_mem hp)
    rw [hsocks k] at hk
    cases hk
  have hst := hS.stacked
  rw [hopened, hS.umems.nothing_live humems] at hst
  exact hst.nothing

variable [DecidableEq ι] [DecidableEq κ] {es : List (Op ι κ)}

theorem run_owned (hrun : run World.step World.empty es = some w) : Owned w.socks w.opened :=
  run_invariant (I := fun w : World ι κ => Owned w.socks w.opened)
    (fun _ _ _ hO h => World.step_owned h hO) owned_empty hrun

theorem run_sound (hrun : run World.step World.empty es = some w)
    (hmeets : Meets World.step Outlives World.empty es) : ∃ low live, Sound w low live := by
  have hboth := run_invariant_where
    (I := fun w : World ι κ => Owned w.socks w.opened ∧ ∃ low live, Sound w low live)
    (fun _ _ _ hI hout h => by
      obtain ⟨hO, low, live, hS⟩ := hI
      exact ⟨World.step_owned h hO, World.step_sound h hout hO hS⟩)
    ⟨owned_empty, [], [], sound_empty⟩ hmeets hrun
  exact hboth.2

end Runs

/-- **Sockets and the memory under them.** Along every sequence of
constructions, moves and destructions of `Umem` and `XdpSocket` objects,
each open socket is that of exactly one object and a moved-from object
has none; every call is in order (no handle is deleted under an open
socket, no region unmapped under a handle, nothing is released twice) if
and only if no `Umem` is destroyed or assigned over while a socket on its
handle is open; and then, when all objects are gone, every socket was
deleted exactly once and before its handle. -/
theorem sockets_need_umem {ι κ : Type} [DecidableEq ι] [DecidableEq κ] (es : List (Op ι κ))
    (w : World ι κ) (hrun : run World.step World.empty es = some w) :
    Owned w.socks w.opened ∧
    ((∃ live, run (Lib.Ledger.step Call.event) [] w.log = some live) ↔
      Meets World.step Outlives World.empty es) ∧
    (Meets World.step Outlives World.empty es → (∀ i, w.umems i = none) →
      (∀ k, w.socks k = none) → Matched w.log) := by
  have hO := run_owned hrun
  refine ⟨hO, ⟨fun ⟨live, hlive⟩ => ?_, fun hmeets => ?_⟩, fun hmeets humems hsocks => ?_⟩
  · apply meets_of_not_fatal
      (D := fun w : World ι κ => run (Lib.Ledger.step Call.event) [] w.log = none)
      (fun _ _ _ h hout => World.step_fatal h hout) (fun _ _ _ hno h => World.step_refused h hno)
      hrun
    rw [hlive]
    exact Option.some_ne_none live
  · obtain ⟨low, live, hS⟩ := run_sound hrun hmeets
    exact ⟨live, hS.ledger⟩
  · obtain ⟨low, live, hS⟩ := run_sound hrun hmeets
    have hledger := hS.ledger
    rw [hS.closed hO humems hsocks] at hledger
    exact matched_of_closed hledger

/-- The `Umem` is moved under its socket, and the socket itself is moved
and moved back; all are gone at the end, the socket first. -/
def movedUnderSocket : List (Op Bool Bool) :=
  [.umem (.construct false { frameCount := 1 } (answersAt 4096 1)),
    .construct false false { iface := "veth1" } (.ok 7), .umem (.moveConstruct true false),
    .moveConstruct true false, .moveAssign false true, .destroy true, .destroy false,
    .umem (.destroy true), .umem (.destroy false)]

theorem sockets_need_umem_movedUnderSocket :
    ∃ w, run World.step World.empty movedUnderSocket = some w ∧ Matched w.log := by
  have hends : (run World.step World.empty movedUnderSocket).isSome := by decide +kernel
  obtain ⟨w, hw⟩ := Option.isSome_iff_exists.mp hends
  have hgone : ∀ v ∈ run World.step World.empty movedUnderSocket,
      (∀ i, v.umems i = none) ∧ ∀ k, v.socks k = none := by decide +kernel
  obtain ⟨humems, hsocks⟩ := hgone w hw
  obtain ⟨-, -, hmatched⟩ := sockets_need_umem movedUnderSocket w hw
  exact ⟨w, hw, hmatched (by decide +kernel) humems hsocks⟩

end UltrafastFeed.XdpSocket
