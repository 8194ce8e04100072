import UltrafastFeed.Lib.Run
import UltrafastFeed.Lib.Table

/-!
# Sender — Descriptors

`SyntheticSender` (`synthetic_sender.hpp`) and what it does to the process
it runs in: the descriptors it opens and closes, and the network namespace
of the calling thread, which the constructor changes and changes back.

SYSTEM. `Kernel` has the descriptor table, the namespace of the thread and
the datagrams sent. A call on a descriptor that is not open, or not open
on the right kind of file, is refused: so a log that the kernel accepts
has no use after close and no double close. A call that opens a
descriptor returns one that is not open, possibly one closed before.
Other code opens and closes descriptors in between. `/proc/self` is the
PROCESS: `/proc/self/ns/net` is the namespace of the calling thread only
if that is the thread-group leader; the leader stays where it is.

LEFT OUT. Strings that cannot be allocated; the payload of a datagram
(`Wire`, `Latency`) and the pauses of `send_burst`.
-/

namespace UltrafastFeed.SyntheticSender

open Lib.Run Lib.Table Function

/-! ## The kernel -/

/-- An address in network order and a port, as `sockaddr_in` has them. -/
structure SockAddr where
  addr : UInt32
  port : UInt16
  deriving DecidableEq, Repr

/-- What a descriptor is open on: a namespace, a datagram socket in a
namespace with the address it is bound to, or a file of other code. -/
inductive File (ν : Type) where
  | netns (n : ν)
  | udp (n : ν) (src : Option UInt32)
  | other
  deriving DecidableEq, Repr

structure Datagram (ν : Type) where
  ns : ν
  src : UInt32
  dst : SockAddr
  deriving DecidableEq, Repr

structure Kernel (ν : Type) where
  /-- The namespace of the thread. -/
  cur : ν
  files : Nat → Option (File ν)
  sent : List (Datagram ν)

/-- A call that succeeded. -/
inductive Call where
  | openSelf (fd : Nat)
  | openNetns (name : String) (fd : Nat)
  | setns (fd : Nat)
  | socket (fd : Nat)
  | bind (fd : Nat) (src : UInt32)
  | sendto (fd : Nat) (dst : SockAddr)
  | openOther (fd : Nat)
  | close (fd : Nat)
  deriving DecidableEq, Repr

/-- The library and the machine: `/var/run/netns`, `inet_pton`, `strerror`,
the namespace in which the thread starts, and the one of the thread-group
leader, if that is another thread. -/
structure System (ν : Type) where
  netns : String → ν
  inetPton : String → Option UInt32
  strerror : Int → String
  home : ν
  leader : Option ν

variable {ν ι : Type}

/-- What `/proc/self/ns/net` refers to for a thread in `cur`. -/
def System.self (S : System ν) (cur : ν) : ν := S.leader.getD cur

def System.boot (S : System ν) : Kernel ν := ⟨S.home, fun _ => none, []⟩

def Kernel.step (S : System ν) (k : Kernel ν) : Call → Option (Kernel ν)
  | .openSelf fd => some { k with files := update k.files fd (some (.netns (S.self k.cur))) }
  | .openNetns name fd => some { k with files := update k.files fd (some (.netns (S.netns name))) }
  | .setns fd =>
      match k.files fd with
      | some (.netns n) => some { k with cur := n }
      | _ => none
  | .socket fd => some { k with files := update k.files fd (some (.udp k.cur none)) }
  | .bind fd src =>
      match k.files fd with
      | some (.udp n none) => some { k with files := update k.files fd (some (.udp n (some src))) }
      | _ => none
  | .sendto fd dst =>
      match k.files fd with
      | some (.udp n (some src)) => some { k with sent := k.sent ++ [⟨n, src, dst⟩] }
      | _ => none
  | .openOther fd => some { k with files := update k.files fd (some .other) }
  | .close fd =>
      match k.files fd with
      | some _ => some { k with files := update k.files fd none }
      | none => none

/-- An opened descriptor was not open. -/
def Fresh (k : Kernel ν) : Call → Prop
  | .openSelf fd | .openNetns _ fd | .socket fd | .openOther fd => k.files fd = none
  | .setns _ | .bind _ _ | .sendto _ _ | .close _ => True

instance [DecidableEq ν] (k : Kernel ν) : (c : Call) → Decidable (Fresh k c)
  | .openSelf fd | .openNetns _ fd | .socket fd | .openOther fd =>
      inferInstanceAs (Decidable (k.files fd = none))
  | .setns _ | .bind _ _ | .sendto _ _ | .close _ => .isTrue trivial

/-! ## The sender -/

/-- The arguments of the constructor. -/
structure Request where
  srcIp : String
  dstIp : String
  dstPort : UInt16
  nsName : String := ""
  deriving DecidableEq, Repr

/-- What the calls of the constructor return, `none` for a descriptor
being a failure; `enter` is the `errno` of a `setns` that fails. -/
structure Answers where
  saved : Option Nat
  target : Option Nat
  enter : Option Int
  socket : Option Nat
  bound : Bool
  restore : Bool
  deriving DecidableEq, Repr

/-- `sock_fd_` and `dst_addr_`. -/
structure Sender where
  sockFd : Nat
  dstAddr : SockAddr
  deriving DecidableEq, Repr

/-- `htons` on a little-endian machine. -/
def htons (p : UInt16) : UInt16 := (p <<< 8) ||| (p >>> 8)

/-- The part of the constructor that enters the namespace; returns
`saved_ns_fd` if there is one. -/
def enterNamespace (S : System ν) (nsName : String) (ans : Answers) :
    Except String (Option Nat) × List Call :=
  if nsName.isEmpty then (.ok none, [])
  else
    match ans.saved with
    | none => (.error "SyntheticSender: failed to open /proc/self/ns/net", [])
    | some saved =>
        match ans.target with
        | none =>
            (.error ("SyntheticSender: failed to open namespace: " ++ nsName),
              [.openSelf saved, .close saved])
        | some ns =>
            match ans.enter with
            | some err =>
                (.error ("SyntheticSender: setns() failed for: " ++ nsName ++ " errno="
                    ++ toString err ++ " (" ++ S.strerror err ++ ")"),
                  [.openSelf saved, .openNetns nsName ns, .close ns, .close saved])
            | none =>
                (.ok (some saved), [.openSelf saved, .openNetns nsName ns, .setns ns, .close ns])

/-- `setns` back, its result ignored, and `close`. -/
def restore (saved : Option Nat) (ok : Bool) : List Call :=
  match saved with
  | some fd => (if ok then [.setns fd] else []) ++ [.close fd]
  | none => []

/-- The rest of the constructor, in the namespace it is to run in. -/
def openSocket (S : System ν) (r : Request) (ans : Answers) : Except String Sender × List Call :=
  match ans.socket with
  | none => (.error "SyntheticSender: socket() failed", [])
  | some fd =>
      match S.inetPton r.srcIp with
      | none => (.error ("SyntheticSender: invalid src_ip: " ++ r.srcIp), [.socket fd, .close fd])
      | some src =>
          if ans.bound then
            match S.inetPton r.dstIp with
            | none =>
                (.error ("SyntheticSender: invalid dst_ip: " ++ r.dstIp),
                  [.socket fd, .bind fd src, .close fd])
            | some dst => (.ok ⟨fd, ⟨dst, htons r.dstPort⟩⟩, [.socket fd, .bind fd src])
          else
            (.error ("SyntheticSender: bind() to " ++ r.srcIp ++ " failed"),
              [.socket fd, .close fd])

/-- `SyntheticSender::SyntheticSender`. Every exit behind the first part
restores the namespace. -/
def construct (S : System ν) (r : Request) (ans : Answers) : Except String Sender × List Call :=
  match enterNamespace S r.nsName ans with
  | (.error e, calls) => (.error e, calls)
  | (.ok saved, calls) =>
      let (res, more) := openSocket S r ans
      (res, calls ++ more ++ restore saved ans.restore)

/-- `SyntheticSender::~SyntheticSender`. -/
def Sender.destroy (o : Sender) : List Call := [.close o.sockFd]

/-- `send_one`: throws with the `errno` if `sendto` fails. -/
def Sender.sendOne (S : System ν) (o : Sender) (err : Option Int) :
    Except String Unit × List Call :=
  match err with
  | none => (.ok (), [.sendto o.sockFd o.dstAddr])
  | some e =>
      (.error ("SyntheticSender: sendto() failed: errno=" ++ toString e
        ++ " (" ++ S.strerror e ++ ")"), [])

/-- The loop of `send_burst` with `n` turns left; `err i` is what the
`sendto` of turn `i` fails with. -/
def Sender.sendLoop (S : System ν) (o : Sender) (err : Nat → Option Int) (i : Nat) :
    Nat → Except String Unit × List Call
  | 0 => (.ok (), [])
  | n + 1 =>
      match o.sendOne S (err i) with
      | (.error e, calls) => (.error e, calls)
      | (.ok _, calls) =>
          let (res, more) := o.sendLoop S err (i + 1) n
          (res, calls ++ more)

/-- `send_burst`. -/
def Sender.sendBurst (S : System ν) (o : Sender) (count : Int32) (err : Nat → Option Int) :
    Except String Unit × List Call :=
  o.sendLoop S err 0 count.toInt.toNat

/-! ## Any number of senders -/

/-- A sender, its arguments, and the namespace its creator was in. -/
structure Made (ν : Type) where
  request : Request
  caller : ν
  obj : Sender

/-- The socket that the arguments ask for. -/
def Made.file (S : System ν) (m : Made ν) : File ν :=
  .udp (if m.request.nsName = "" then m.caller else S.netns m.request.nsName)
    (S.inetPton m.request.srcIp)

/-- The addresses are valid, and the destination is the one asked for. -/
structure Made.Addressed (S : System ν) (m : Made ν) : Prop where
  src : (S.inetPton m.request.srcIp).isSome
  dst : S.inetPton m.request.dstIp = some m.obj.dstAddr.addr
  port : m.obj.dstAddr.port = htons m.request.dstPort

structure World (ν ι : Type) where
  senders : ι → Option (Made ν)
  /-- The descriptors of other code. -/
  others : List Nat
  log : List Call

def World.empty : World ν ι := ⟨fun _ => none, [], []⟩

inductive Op (ι : Type) where
  | construct (i : ι) (r : Request) (ans : Answers)
  | sendOne (i : ι) (err : Option Int)
  | sendBurst (i : ι) (count : Int32) (err : Nat → Option Int)
  | destroy (i : ι)
  | openOther (fd : Nat)
  | closeOther (fd : Nat)

def World.kernel (S : System ν) (w : World ν ι) : Option (Kernel ν) :=
  run (Kernel.step S) S.boot w.log

def World.step [DecidableEq ν] [DecidableEq ι] (S : System ν) (w : World ν ι) :
    Op ι → Option (World ν ι)
  | .construct i r ans =>
      match w.senders i, w.kernel S with
      | none, some k =>
          let (res, calls) := construct S r ans
          if Meets (Kernel.step S) Fresh k calls then
            match res with
            | .ok o =>
                some { w with
                  senders := update w.senders i (some ⟨r, k.cur, o⟩), log := w.log ++ calls }
            | .error _ => some { w with log := w.log ++ calls }
          else none
      | _, _ => none
  | .sendOne i err => (w.senders i).map fun m => { w with log := w.log ++ (m.obj.sendOne S err).2 }
  | .sendBurst i count err =>
      (w.senders i).map fun m => { w with log := w.log ++ (m.obj.sendBurst S count err).2 }
  | .destroy i =>
      (w.senders i).map fun m =>
        { w with senders := update w.senders i none, log := w.log ++ m.obj.destroy }
  | .openOther fd =>
      match w.kernel S with
      | some k =>
          if Fresh k (.openOther fd) then
            some { w with others := fd :: w.others, log := w.log ++ [.openOther fd] }
          else none
      | none => none
  | .closeOther fd =>
      if fd ∈ w.others then
        some { w with others := w.others.filter (· ≠ fd), log := w.log ++ [.close fd] }
      else none

/-! ## Calls -/

section Calls

variable {S : System ν} {k : Kernel ν} {fd : Nat}

theorem Kernel.step_close {f : File ν} (h : k.files fd = some f) :
    k.step S (.close fd) = some { k with files := update k.files fd none } := by
  simp only [Kernel.step, h]

theorem Kernel.step_setns {n : ν} (h : k.files fd = some (.netns n)) :
    k.step S (.setns fd) = some { k with cur := n } := by
  simp only [Kernel.step, h]

theorem Kernel.step_bind {n : ν} (src : UInt32) (h : k.files fd = some (.udp n none)) :
    k.step S (.bind fd src)
      = some { k with files := update k.files fd (some (.udp n (some src))) } := by
  simp only [Kernel.step, h]

theorem Kernel.step_sendto {n : ν} {src : UInt32} (dst : SockAddr)
    (h : k.files fd = some (.udp n (some src))) :
    k.step S (.sendto fd dst) = some { k with sent := k.sent ++ [⟨n, src, dst⟩] } := by
  simp only [Kernel.step, h]

/-- What was opened is closed. -/
theorem update_closed {files : Nat → Option (File ν)} (h : files fd = none) (f : Option (File ν)) :
    update (update files fd f) fd none = files := by
  rw [update_idem, ← h, update_eq_self]

end Calls

/-! ## The constructor -/

section Constructor

variable {S : System ν} {k k' : Kernel ν} {r : Request} {ans : Answers} {calls : List Call}

/-- Entering: on a failure nothing is left behind, and otherwise what is
left open is the descriptor to come back with. -/
def Entered (S : System ν) (nsName : String) (k k' : Kernel ν) :
    Except String (Option Nat) → Prop
  | .error _ => k'.files = k.files ∧ k'.cur = k.cur
  | .ok none => nsName = "" ∧ k' = k
  | .ok (some saved) => nsName ≠ "" ∧ k.files saved = none ∧ k'.cur = S.netns nsName ∧
      k'.files = update k.files saved (some (.netns (S.self k.cur)))

theorem enterNamespace_runs {res : Except String (Option Nat)} {nsName : String}
    (h : enterNamespace S nsName ans = (res, calls))
    (hfresh : Meets (Kernel.step S) Fresh k calls) :
    ∃ k', run (Kernel.step S) k calls = some k' ∧ k'.sent = k.sent ∧
      Entered S nsName k k' res := by
  rw [enterNamespace] at h
  split at h
  next hempty =>
    cases h
    exact ⟨k, rfl, rfl, String.isEmpty_iff.mp hempty, rfl⟩
  next hempty =>
    split at h
    next =>
      cases h
      exact ⟨k, rfl, rfl, rfl, rfl⟩
    next saved hsaved =>
      split at h
      next =>
        -- no such namespace
        cases h
        obtain ⟨hnew, -⟩ := hfresh
        refine ⟨k, run_cons.mpr ⟨_, rfl, run_cons.mpr ⟨_, Kernel.step_close (update_self ..), ?_⟩⟩,
          rfl, rfl, rfl⟩
        rw [run_nil, update_closed hnew]
      next ns hns =>
        split at h
        next err herr =>
          -- `setns` fails
          cases h
          obtain ⟨hnew, hfresh⟩ := hfresh
          obtain ⟨hnew', -⟩ := hfresh _ rfl
          refine ⟨k, run_cons.mpr ⟨_, rfl, run_cons.mpr ⟨_, rfl,
            run_cons.mpr ⟨_, Kernel.step_close (update_self ..), run_cons.mpr ⟨_, ?_, rfl⟩⟩⟩⟩,
            rfl, rfl, rfl⟩
          rw [update_closed hnew', Kernel.step_close (update_self ..), update_closed hnew]
        next herr =>
          cases h
          obtain ⟨hnew, hfresh⟩ := hfresh
          obtain ⟨hnew', -⟩ := hfresh _ rfl
          refine ⟨⟨S.netns nsName, update k.files saved (some (.netns (S.self k.cur))), k.sent⟩,
            run_cons.mpr ⟨_, rfl, run_cons.mpr ⟨_, rfl,
              run_cons.mpr ⟨_, Kernel.step_setns (update_self ..), run_cons.mpr ⟨_, ?_, rfl⟩⟩⟩⟩,
            rfl, fun heq => hempty (String.isEmpty_iff.mpr heq), hnew, rfl, rfl⟩
          rw [Kernel.step_close (update_self ..), update_closed hnew']

/-- The socket: on a failure it is closed again. -/
def Opened (S : System ν) (r : Request) (k k' : Kernel ν) : Except String Sender → Prop
  | .error _ => k'.files = k.files
  | .ok o => ∃ src, S.inetPton r.srcIp = some src ∧
      S.inetPton r.dstIp = some o.dstAddr.addr ∧ o.dstAddr.port = htons r.dstPort ∧
      k.files o.sockFd = none ∧
      k'.files = update k.files o.sockFd (some (.udp k.cur (some src)))

theorem openSocket_runs {res : Except String Sender} (h : openSocket S r ans = (res, calls))
    (hfresh : Meets (Kernel.step S) Fresh k calls) :
    ∃ k', run (Kernel.step S) k calls = some k' ∧ k'.sent = k.sent ∧ k'.cur = k.cur ∧
      Opened S r k k' res := by
  rw [openSocket] at h
  split at h
  next =>
    cases h
    exact ⟨k, rfl, rfl, rfl, rfl⟩
  next fd hfd =>
    split at h
    next =>
      cases h
      obtain ⟨hnew, -⟩ := hfresh
      refine ⟨k, run_cons.mpr ⟨_, rfl, run_cons.mpr ⟨_, ?_, rfl⟩⟩, rfl, rfl, rfl⟩
      rw [Kernel.step_close (update_self ..), update_closed hnew]
    next src hsrc =>
      split at h
      next hbound =>
        split at h
        next =>
          cases h
          obtain ⟨hnew, -⟩ := hfresh
          refine ⟨k, run_cons.mpr ⟨_, rfl, run_cons.mpr ⟨_, Kernel.step_bind src (update_self ..),
            run_cons.mpr ⟨_, ?_, rfl⟩⟩⟩, rfl, rfl, rfl⟩
          rw [Kernel.step_close (update_self ..), update_idem, update_closed hnew]
        next dst hdst =>
          cases h
          obtain ⟨hnew, -⟩ := hfresh
          refine ⟨_, run_cons.mpr ⟨_, rfl, run_cons.mpr ⟨_, Kernel.step_bind src (update_self ..),
            rfl⟩⟩, rfl, rfl, src, hsrc, hdst, rfl, hnew, update_idem ..⟩
      next =>
        cases h
        obtain ⟨hnew, -⟩ := hfresh
        refine ⟨k, run_cons.mpr ⟨_, rfl, run_cons.mpr ⟨_, ?_, rfl⟩⟩, rfl, rfl, rfl⟩
        rw [Kernel.step_close (update_self ..), update_closed hnew]

/-- Coming back, unless `setns` fails. -/
theorem restore_runs {saved : Nat} {n : ν} (h : k.files saved = some (.netns n)) (ok : Bool) :
    run (Kernel.step S) k (restore (some saved) ok)
      = some ⟨if ok then n else k.cur, update k.files saved none, k.sent⟩ := by
  cases ok with
  | false => exact run_cons.mpr ⟨_, Kernel.step_close h, rfl⟩
  | true =>
      exact run_cons.mpr ⟨_, Kernel.step_setns h, run_cons.mpr ⟨_, Kernel.step_close h, rfl⟩⟩

/-- Where a constructor called in `n` leaves the thread: one that entered
a namespace comes back to what it saved, or is unable to come back. -/
def leavesIn (S : System ν) (r : Request) (ans : Answers) (n : ν) : ν :=
  match (enterNamespace S r.nsName ans).1 with
  | .ok (some _) => if ans.restore then S.self n else S.netns r.nsName
  | _ => n

/-- The constructor leaves open the socket asked for, or nothing. -/
def Constructed (S : System ν) (r : Request) (k k' : Kernel ν) : Except String Sender → Prop
  | .error _ => k'.files = k.files
  | .ok o => k.files o.sockFd = none ∧ Made.Addressed S ⟨r, k.cur, o⟩ ∧
      k'.files = update k.files o.sockFd (some (Made.file S ⟨r, k.cur, o⟩))

/-- **The constructor**, whichever call fails. -/
theorem construct_runs {res : Except String Sender} (h : construct S r ans = (res, calls))
    (hfresh : Meets (Kernel.step S) Fresh k calls) :
    ∃ k', run (Kernel.step S) k calls = some k' ∧ k'.sent = k.sent ∧
      k'.cur = leavesIn S r ans k.cur ∧ Constructed S r k k' res := by
  rw [construct] at h
  rw [leavesIn]
  split at h
  next e first henter =>
    cases h
    obtain ⟨k₁, hrun, hsent, hfiles, hcur⟩ := enterNamespace_runs henter hfresh
    rw [henter]
    exact ⟨k₁, hrun, hsent, hcur, hfiles⟩
  next saved first henter =>
    generalize hopen : openSocket S r ans = out at h
    obtain ⟨res', more⟩ := out
    cases h
    rw [henter]
    rw [List.append_assoc] at hfresh ⊢
    obtain ⟨k₁, hrun₁, hsent₁, hk₁⟩ := enterNamespace_runs henter hfresh.left
    have hfresh₁ := meets_append hfresh hrun₁
    obtain ⟨k₂, hrun₂, hsent₂, hcur₂, hk₂⟩ := openSocket_runs hopen hfresh₁.left
    cases saved with
    | none =>
        obtain ⟨hempty, rfl⟩ := hk₁
        refine ⟨k₂, run_append.mpr ⟨k₁, hrun₁, run_append.mpr ⟨k₂, hrun₂, rfl⟩⟩, hsent₂, hcur₂, ?_⟩
        cases res with
        | error e => exact hk₂
        | ok o =>
            obtain ⟨src, hsrc, hdst, hport, hnew, hfiles⟩ := hk₂
            refine ⟨hnew, ⟨Option.isSome_of_mem hsrc, hdst, hport⟩, ?_⟩
            rw [hfiles, Made.file, if_pos hempty, hsrc]
    | some saved =>
        obtain ⟨hnamed, hsaved, hcur₁, hfiles₁⟩ := hk₁
        have hopened : k₁.files saved = some (.netns (S.self k.cur)) := by rw [hfiles₁, update_self]
        -- the descriptor to come back with is still open
        have hstill : k₂.files saved = some (.netns (S.self k.cur)) := by
          cases res with
          | error e =>
              rw [Opened] at hk₂
              rw [hk₂, hopened]
          | ok o =>
              obtain ⟨src, -, -, -, hnew, hfiles⟩ := hk₂
              have hne : saved ≠ o.sockFd := by
                rintro rfl
                rw [hopened] at hnew
                cases hnew
              rw [hfiles, update_of_ne hne, hopened]
        refine ⟨_, run_append.mpr ⟨k₁, hrun₁, run_append.mpr ⟨k₂, hrun₂, restore_runs hstill _⟩⟩,
          hsent₂.trans hsent₁, ?_, ?_⟩
        · rw [hcur₂, hcur₁]
        · cases res with
          | error e =>
              change update k₂.files saved none = k.files
              rw [Opened] at hk₂
              rw [hk₂, hfiles₁, update_closed hsaved]
          | ok o =>
              obtain ⟨src, hsrc, hdst, hport, hnew, hfiles⟩ := hk₂
              have hne : o.sockFd ≠ saved := by
                rintro rfl
                rw [hopened] at hnew
                cases hnew
              rw [hfiles₁, update_of_ne hne] at hnew
              refine ⟨hnew, ⟨Option.isSome_of_mem hsrc, hdst, hport⟩, ?_⟩
              change update k₂.files saved none = _
              rw [hfiles, hfiles₁, hcur₁, update_comm hne, update_closed hsaved, Made.file,
                if_neg hnamed, hsrc]

end Constructor

/-! ## Sending -/

section Sending

variable {S : System ν} {k : Kernel ν} {o : Sender} {n : ν} {src : UInt32}

theorem sendOne_runs (h : k.files o.sockFd = some (.udp n (some src))) (err : Option Int) :
    ∃ m ≤ 1, run (Kernel.step S) k (o.sendOne S err).2
        = some { k with sent := k.sent ++ List.replicate m ⟨n, src, o.dstAddr⟩ } ∧
      ((o.sendOne S err).1 = .ok () → m = 1) := by
  cases err with
  | none =>
      exact ⟨1, Nat.le_refl 1, run_cons.mpr ⟨_, Kernel.step_sendto o.dstAddr h, rfl⟩, fun _ => rfl⟩
  | some e =>
      refine ⟨0, Nat.zero_le 1, ?_, fun hok => ?_⟩
      · rw [List.replicate_zero, List.append_nil]
        rfl
      · cases hok

/-- A burst sends one datagram a turn until a `sendto` fails. -/
theorem sendLoop_runs (h : k.files o.sockFd = some (.udp n (some src))) (err : Nat → Option Int)
    (i turns : Nat) :
    ∃ m ≤ turns, run (Kernel.step S) k (o.sendLoop S err i turns).2
        = some { k with sent := k.sent ++ List.replicate m ⟨n, src, o.dstAddr⟩ } ∧
      ((o.sendLoop S err i turns).1 = .ok () → m = turns) := by
  induction turns generalizing i k with
  | zero =>
      refine ⟨0, Nat.le_refl 0, ?_, fun _ => rfl⟩
      rw [List.replicate_zero, List.append_nil]
      rfl
  | succ turns ih =>
      obtain ⟨m, hm, hrun, hall⟩ := sendOne_runs (S := S) h (err i)
      rw [Sender.sendLoop]
      generalize hone : o.sendOne S (err i) = one at hrun hall
      obtain ⟨res, calls⟩ := one
      cases res with
      | error e =>
          exact ⟨m, Nat.le_trans hm (Nat.le_add_left 1 turns), hrun, fun hok => by cases hok⟩
      | ok u =>
          obtain rfl := hall rfl
          obtain ⟨m', hm', hrun', hall'⟩ :=
            ih (k := { k with sent := k.sent ++ List.replicate 1 ⟨n, src, o.dstAddr⟩ }) h (i + 1)
          refine ⟨1 + m', by omega, ?_, fun hok => ?_⟩
          · rw [← List.replicate_append_replicate, ← List.append_assoc]
            exact run_append.mpr ⟨_, hrun, hrun'⟩
          · have := hall' hok
            omega

end Sending

/-! ## Every run -/

/-- Where an operation leaves the thread. -/
def Op.place (S : System ν) (n : ν) : Op ι → ν
  | .construct _ r ans => leavesIn S r ans n
  | _ => n

/-- `setns` back to the saved namespace does not fail. -/
def Op.Restores : Op ι → Prop
  | .construct _ _ ans => ans.restore = true
  | _ => True

theorem Op.place_eq {op : Op ι} (h : op.Restores) {S : System ν} {n : ν} (hself : S.self n = n) :
    op.place S n = n := by
  cases op with
  | construct i r ans =>
      have hrestore : ans.restore = true := h
      rw [Op.place, leavesIn, hrestore]
      split
      · exact (if_pos rfl).trans hself
      · rfl
  | sendOne | sendBurst | destroy | openOther | closeOther => rfl

inductive Owner (ι : Type) where
  | sender (i : ι)
  | other (fd : Nat)
  deriving DecidableEq

/-- Who holds which descriptor, and what it is open on. -/
def World.holds (S : System ν) (w : World ν ι) : Owner ι → Option (Nat × File ν)
  | .sender i => (w.senders i).map fun m => (m.obj.sockFd, m.file S)
  | .other fd => if fd ∈ w.others then some (fd, .other) else none

/-- **The descriptor table**: the sockets of the senders, each as it was
asked for, and the descriptors of other code. -/
structure Inv (S : System ν) (w : World ν ι) (k : Kernel ν) : Prop where
  kernel : w.kernel S = some k
  owned : Owned (w.holds S) k.files
  addressed : ∀ i m, w.senders i = some m → m.Addressed S

section Holds

variable [DecidableEq ι] {S : System ν} {w : World ν ι} {i : ι} {log : List Call}

theorem holds_update (m : Option (Made ν)) :
    World.holds S { w with senders := update w.senders i m, log := log }
      = update (w.holds S) (.sender i) (m.map fun m => (m.obj.sockFd, m.file S)) := by
  funext x
  cases x with
  | sender j =>
      by_cases hj : j = i
      · simp [World.holds, hj]
      · simp [World.holds, hj]
  | other fd => rw [update_of_ne (by simp), World.holds, World.holds]

theorem holds_others {fd : Nat} {others : List Nat}
    (h : ∀ d, d ≠ fd → (d ∈ others ↔ d ∈ w.others)) :
    World.holds S { w with others := others, log := log }
      = update (w.holds S) (.other fd) (if fd ∈ others then some (fd, .other) else none) := by
  funext x
  cases x with
  | sender j => rw [update_of_ne (by simp), World.holds, World.holds]
  | other d =>
      by_cases hd : d = fd
      · rw [hd, update_self, World.holds]
      · rw [update_of_ne (by simpa using hd), World.holds, World.holds]
        exact if_congr (h d hd) rfl rfl

end Holds

theorem update_some [DecidableEq ι] {f : ι → Option (Made ν)} {i j : ι} {x : Option (Made ν)}
    {m : Made ν} (h : update f i x j = some m) : x = some m ∨ f j = some m := by
  by_cases hj : j = i
  · rw [hj, update_self] at h
    exact .inl h
  · rw [update_of_ne hj] at h
    exact .inr h

section Steps

variable {S : System ν} {w w' : World ν ι} {k : Kernel ν} {i : ι} {m : Made ν}

theorem inv_empty : Inv S (World.empty : World ν ι) S.boot where
  kernel := rfl
  owned := by
    have hnone : (World.empty : World ν ι).holds S = fun _ => none := by
      funext x
      cases x <;> rfl
    rw [hnone]
    exact owned_empty
  addressed := by simp [World.empty]

theorem World.kernel_append {calls : List Call} {k' : Kernel ν} (hk : w.kernel S = some k)
    (hrun : run (Kernel.step S) k calls = some k') :
    run (Kernel.step S) S.boot (w.log ++ calls) = some k' :=
  run_append.mpr ⟨k, hk, hrun⟩

/-- The socket of a sender is open and bound. -/
theorem Inv.socket (hI : Inv S w k) (hm : w.senders i = some m) :
    ∃ src, S.inetPton m.request.srcIp = some src ∧ k.files m.obj.sockFd =
      some (.udp (if m.request.nsName = "" then m.caller else S.netns m.request.nsName)
        (some src)) := by
  obtain ⟨src, hsrc⟩ := Option.isSome_iff_exists.mp (hI.addressed i m hm).src
  have hholds : w.holds S (.sender i) = some (m.obj.sockFd, m.file S) := by
    rw [World.holds, hm, Option.map_some]
  have hfile := hI.owned.present _ _ _ hholds
  rw [Made.file, hsrc] at hfile
  exact ⟨src, hsrc, hfile⟩

/-- Sending changes nothing but what is sent. -/
theorem Inv.sent (hI : Inv S w k) {calls : List Call} {sent : List (Datagram ν)}
    (hrun : run (Kernel.step S) k calls = some { k with sent := sent }) :
    Inv S { w with log := w.log ++ calls } { k with sent := sent } where
  kernel := World.kernel_append hI.kernel hrun
  owned := by
    have hsame : World.holds S { w with log := w.log ++ calls } = w.holds S := by
      funext x
      cases x <;> rfl
    rw [hsame]
    exact hI.owned
  addressed := hI.addressed

variable [DecidableEq ι] [DecidableEq ν]

theorem Inv.construct (hI : Inv S w k) {r : Request} {ans : Answers}
    (h : w.step S (.construct i r ans) = some w') :
    ∃ k', Inv S w' k' ∧ k'.cur = leavesIn S r ans k.cur ∧
      ∀ j m, w'.senders j = some m → w.senders j = some m ∨ m.caller = k.cur := by
  simp only [World.step, hI.kernel] at h
  split at h
  next hi hk =>
    cases hk
    rw [Option.ite_none_right_eq_some] at h
    obtain ⟨hfresh, h⟩ := h
    generalize hc : SyntheticSender.construct S r ans = out at h hfresh
    obtain ⟨res, calls⟩ := out
    obtain ⟨k', hrun, hsent, hcur, hmade⟩ := construct_runs hc hfresh
    cases res with
    | error e =>
        cases h
        have hsame : World.holds S { w with log := w.log ++ calls } = w.holds S := by
          funext x
          cases x <;> rfl
        refine ⟨k', ⟨World.kernel_append hI.kernel hrun, ?_, hI.addressed⟩, hcur,
          fun _ _ hj => .inl hj⟩
        rw [Constructed] at hmade
        rw [hsame, hmade]
        exact hI.owned
    | ok o =>
        cases h
        obtain ⟨hnew, haddr, hfiles⟩ := hmade
        refine ⟨k', ⟨World.kernel_append hI.kernel hrun, ?_, fun j m hj => ?_⟩, hcur,
          fun j m hj => ?_⟩
        · rw [holds_update, hfiles]
          refine hI.owned.opens ?_ hnew _
          rw [World.holds, hi, Option.map_none]
        · rcases update_some hj with hm | hj
          · cases hm
            exact haddr
          · exact hI.addressed j m hj
        · rcases update_some hj with hm | hj
          · cases hm
            exact .inr rfl
          · exact .inl hj
  next => cases h

theorem Inv.destroy (hI : Inv S w k) (h : w.step S (.destroy i) = some w') :
    ∃ k', Inv S w' k' ∧ k'.cur = k.cur ∧
      ∀ j m, w'.senders j = some m → w.senders j = some m := by
  rw [World.step, Option.map_eq_some_iff] at h
  obtain ⟨m, hm, rfl⟩ := h
  obtain ⟨src, -, hfile⟩ := hI.socket hm
  have hstay : ∀ j m', update w.senders i none j = some m' → w.senders j = some m' :=
    fun j m' hj => (update_some hj).resolve_left (Option.some_ne_none m').symm
  have hrun : run (Kernel.step S) k m.obj.destroy
      = some { k with files := update k.files m.obj.sockFd none } :=
    run_cons.mpr ⟨_, Kernel.step_close hfile, rfl⟩
  refine ⟨_, ⟨World.kernel_append hI.kernel hrun, ?_,
    fun j m' hj => hI.addressed j m' (hstay j m' hj)⟩, rfl, hstay⟩
  rw [holds_update]
  refine hI.owned.closes (f := m.file S) ?_
  rw [World.holds, hm, Option.map_some]

theorem Inv.openOther (hI : Inv S w k) {fd : Nat} (h : w.step S (.openOther fd) = some w') :
    ∃ k', Inv S w' k' ∧ k'.cur = k.cur ∧ w'.senders = w.senders := by
  simp only [World.step, hI.kernel] at h
  rw [Option.ite_none_right_eq_some] at h
  obtain ⟨hfresh, h⟩ := h
  cases h
  rw [Fresh] at hfresh
  have hclosed : fd ∉ w.others := by
    intro hmem
    have hholds : w.holds S (.other fd) = some (fd, .other) := by rw [World.holds, if_pos hmem]
    rw [hI.owned.present _ _ _ hholds] at hfresh
    cases hfresh
  refine ⟨_, ⟨World.kernel_append hI.kernel (run_cons.mpr ⟨_, rfl, rfl⟩), ?_, hI.addressed⟩, rfl,
    rfl⟩
  rw [holds_others (fun d hd => List.mem_cons.trans (or_iff_right hd)), if_pos List.mem_cons_self]
  refine hI.owned.opens ?_ hfresh _
  rw [World.holds, if_neg hclosed]

theorem Inv.closeOther (hI : Inv S w k) {fd : Nat} (h : w.step S (.closeOther fd) = some w') :
    ∃ k', Inv S w' k' ∧ k'.cur = k.cur ∧ w'.senders = w.senders := by
  rw [World.step, Option.ite_none_right_eq_some] at h
  obtain ⟨hmem, h⟩ := h
  cases h
  have hholds : w.holds S (.other fd) = some (fd, .other) := by rw [World.holds, if_pos hmem]
  have hrun : run (Kernel.step S) k [.close fd] = some { k with files := update k.files fd none } :=
    run_cons.mpr ⟨_, Kernel.step_close (hI.owned.present _ _ _ hholds), rfl⟩
  refine ⟨_, ⟨World.kernel_append hI.kernel hrun, ?_, hI.addressed⟩, rfl, rfl⟩
  have hleft : ∀ d, d ≠ fd → (d ∈ w.others.filter (· ≠ fd) ↔ d ∈ w.others) := by
    intro d hd
    simp [hd]
  rw [holds_others hleft, if_neg (by simp)]
  exact hI.owned.closes hholds

/-- **Every operation keeps the table**; a new sender's creator is where
the thread is. -/
theorem World.step_inv {op : Op ι} (h : w.step S op = some w') (hI : Inv S w k) :
    ∃ k', Inv S w' k' ∧ k'.cur = op.place S k.cur ∧
      ∀ j m, w'.senders j = some m → w.senders j = some m ∨ m.caller = k.cur := by
  cases op with
  | construct i r ans => exact hI.construct h
  | sendOne i err =>
      rw [World.step, Option.map_eq_some_iff] at h
      obtain ⟨m, hm, rfl⟩ := h
      obtain ⟨src, -, hfile⟩ := hI.socket hm
      obtain ⟨n, -, hrun, -⟩ := sendOne_runs (S := S) hfile err
      exact ⟨_, hI.sent hrun, rfl, fun _ _ hj => .inl hj⟩
  | sendBurst i count err =>
      rw [World.step, Option.map_eq_some_iff] at h
      obtain ⟨m, hm, rfl⟩ := h
      obtain ⟨src, -, hfile⟩ := hI.socket hm
      obtain ⟨n, -, hrun, -⟩ := sendLoop_runs (S := S) hfile err 0 count.toInt.toNat
      exact ⟨_, hI.sent hrun, rfl, fun _ _ hj => .inl hj⟩
  | destroy i =>
      obtain ⟨k', hI', hcur, hstay⟩ := hI.destroy h
      exact ⟨k', hI', hcur, fun j m hj => .inl (hstay j m hj)⟩
  | openOther fd =>
      obtain ⟨k', hI', hcur, hsame⟩ := hI.openOther h
      exact ⟨k', hI', hcur, fun j m hj => .inl (hsame ▸ hj)⟩
  | closeOther fd =>
      obtain ⟨k', hI', hcur, hsame⟩ := hI.closeOther h
      exact ⟨k', hI', hcur, fun j m hj => .inl (hsame ▸ hj)⟩

/-- Along whole runs, from any state with the table. -/
theorem run_inv {ops : List (Op ι)} (hI : Inv S w k) (hrun : run (World.step S) w ops = some w') :
    ∃ k', Inv S w' k' ∧ k'.cur = ops.foldl (Op.place S) k.cur := by
  induction ops generalizing w k with
  | nil =>
      rw [run_nil] at hrun
      cases hrun
      exact ⟨k, hI, rfl⟩
  | cons op ops ih =>
      obtain ⟨v, hv, hrest⟩ := run_cons.mp hrun
      obtain ⟨k₁, hI₁, hcur, -⟩ := World.step_inv hv hI
      obtain ⟨k', hI', hcur'⟩ := ih hI₁ hrest
      exact ⟨k', hI', by rw [hcur', hcur, List.foldl_cons]⟩

/-- With every `setns` back successful, and back to where it was called,
the thread is at home whenever a constructor is called. -/
def Home (S : System ν) (w : World ν ι) : Prop :=
  (∃ k, Inv S w k ∧ k.cur = S.home) ∧ ∀ i m, w.senders i = some m → m.caller = S.home

theorem Home.step {op : Op ι} (hself : S.self S.home = S.home) (hH : Home S w)
    (hback : op.Restores) (h : w.step S op = some w') : Home S w' := by
  obtain ⟨⟨k, hI, hcur⟩, hcallers⟩ := hH
  obtain ⟨k', hI', hcur', hnew⟩ := World.step_inv h hI
  refine ⟨⟨k', hI', by rw [hcur', hcur, Op.place_eq hback hself]⟩, fun j m hj => ?_⟩
  rcases hnew j m hj with hold | heq
  · exact hcallers j m hold
  · rw [heq, hcur]

theorem run_home {ops : List (Op ι)} (hself : S.self S.home = S.home)
    (hrun : run (World.step S) World.empty ops = some w) (hback : ∀ op ∈ ops, op.Restores) :
    Home S w := by
  have hstep : ∀ (v : World ν ι) (op : Op ι) (v' : World ν ι), Home S v → op.Restores →
      World.step S v op = some v' → Home S v' :=
    fun _ _ _ hH hback h => hH.step hself hback h
  exact run_invariant_where hstep ⟨⟨S.boot, inv_empty, rfl⟩, by simp [World.empty]⟩
    (meets_of_labels hback) hrun

end Steps

/-- The datagram that the sender's arguments ask for. -/
def Made.datagram (S : System ν) (m : Made ν) (src dst : UInt32) : Datagram ν where
  ns := if m.request.nsName = "" then m.caller else S.netns m.request.nsName
  src := src
  dst := ⟨dst, htons m.request.dstPort⟩

/-- Two namespaces, and the main thread; the addresses `a` and `b` are
valid. -/
def twoNamespaces : System Bool where
  netns name := name == "sender_ns"
  inetPton s := if s = "a" then some 1 else if s = "b" then some 2 else none
  strerror _ := ""
  home := false
  leader := none

/-- A constructor that fails behind `setns`, one whose `ns_fd` number the
socket gets again, a burst that fails at its third datagram, and other
code that then gets the descriptor the sender closed. -/
def reusedDescriptor : List (Op Bool) :=
  [.construct false ⟨"a", "?", 9999, "sender_ns"⟩ ⟨some 3, some 4, none, some 4, true, true⟩,
    .construct false ⟨"a", "b", 9999, "sender_ns"⟩ ⟨some 3, some 4, none, some 4, true, true⟩,
    .sendBurst false 5 fun i => if i = 2 then some 1 else none,
    .construct true ⟨"b", "a", 9999, ""⟩ ⟨none, none, none, some 3, true, true⟩,
    .destroy false, .openOther 4, .sendOne true none, .destroy true]

/-- A worker thread that is not where the main thread is: `setns` back
succeeds and moves it there. -/
example : leavesIn { twoNamespaces with leader := some true } ⟨"a", "b", 9999, "other_ns"⟩
    ⟨some 3, some 4, none, some 4, true, true⟩ false = true := by
  decide

end UltrafastFeed.SyntheticSender
