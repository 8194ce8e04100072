import Mathlib.Logic.Equiv.Basic
import UltrafastFeed.Lib.Ledger
import UltrafastFeed.Socket.TxFrames
import UltrafastFeed.Umem.Object

/-!
# Umem — Lifecycle

Any number of `Umem` objects that are constructed, moved and destroyed in
any order. The state is the objects there are and the log of the system
calls they made; the log is judged by the ledger, to which a handle is a
resource that needs its region.

SYSTEM. It does not return an address that is mapped or a handle that
exists. A constructor completes or throws because `mmap` or
`xsk_umem__create` failed.

The invariant is ownership: each live resource is that of one object that
is as its constructor left it, and every other object is empty. A move
renames the owner. A move assignment is a destruction of the target
followed by a move construction (`moveAssign_eq`), so it needs no
argument of its own.
-/

namespace UltrafastFeed.Umem

open Lib.Run Lib.Ledger Function

/-! ## The model -/

inductive Resource where
  | region (addr : Nat) (size : UInt64)
  | handle (umem : Nat)
  deriving DecidableEq, Repr

def SysCall.event : SysCall → Event Resource
  | .mmap addr size _ => .acquire (.region addr size) []
  | .munmap addr size => .release (.region addr size)
  | .xskUmemCreate umem area size _ =>
      .acquire (.handle umem) (area.toList.map (.region · size))
  | .xskUmemDelete umem => .release (.handle umem)

/-- Whether `addr` is mapped after the calls, `m` saying whether it was
before. -/
def mappedAfter (addr : Nat) (m : Bool) : List SysCall → Bool
  | [] => m
  | .mmap a _ _ :: cs => mappedAfter addr (m || a = addr) cs
  | .munmap a _ :: cs => mappedAfter addr (m && a ≠ addr) cs
  | _ :: cs => mappedAfter addr m cs

/-- Whether the handle `umem` exists after the calls. -/
def createdAfter (umem : Nat) (m : Bool) : List SysCall → Bool
  | [] => m
  | .xskUmemCreate u _ _ _ :: cs => createdAfter umem (m || u = umem) cs
  | .xskUmemDelete u :: cs => createdAfter umem (m && u ≠ umem) cs
  | _ :: cs => createdAfter umem m cs

/-- The answers name nothing that is in use. -/
def Fresh (log : List SysCall) (ans : Answers) : Prop :=
  (∀ addr ∈ ans.hugeMap, mappedAfter addr false log = false) ∧
    (∀ addr ∈ ans.map, mappedAfter addr false log = false) ∧
    ∀ umem ∈ ans.create, createdAfter umem false log = false

instance (log : List SysCall) (ans : Answers) : Decidable (Fresh log ans) :=
  inferInstanceAs (Decidable (_ ∧ _ ∧ _))

structure World (ι : Type) where
  objs : ι → Option UmemObject
  log : List SysCall

def World.empty {ι : Type} : World ι := ⟨fun _ => none, []⟩

inductive Life (ι : Type) where
  | construct (i : ι) (cfg : CtorConfig) (ans : Answers)
  | moveConstruct (dst src : ι)
  | moveAssign (dst src : ι)
  | destroy (i : ι)
  deriving DecidableEq, Repr

variable {ι : Type}

def World.step [DecidableEq ι] (w : World ι) : Life ι → Option (World ι)
  | .construct i cfg ans =>
      if w.objs i = none ∧ Fresh w.log ans then
        match construct cfg ans with
        | (.ok o, calls) => some ⟨update w.objs i (some o), w.log ++ calls⟩
        | (.error .reserveFailed, _) => none
        | (.error _, calls) => some { w with log := w.log ++ calls }
      else none
  | .moveConstruct dst src =>
      match w.objs dst, w.objs src with
      | none, some other =>
          let (o, other') := other.moveConstruct
          some { w with objs := update (update w.objs dst (some o)) src (some other') }
      | _, _ => none
  | .moveAssign dst src =>
      match w.objs dst, w.objs src with
      | some o, some other =>
          if dst = src then some w
          else
            let ((o', other'), calls) := o.moveAssign other
            some ⟨update (update w.objs dst (some o')) src (some other'), w.log ++ calls⟩
      | _, _ => none
  | .destroy i =>
      match w.objs i with
      | some o => some ⟨update w.objs i none, w.log ++ o.destroy⟩
      | none => none

/-! ## Owners -/

/-- Nothing is left in a moved-from object. -/
structure UmemObject.Empty (o : UmemObject) : Prop where
  region : o.region = none
  umem : o.umem = none
  freeFrames : o.freeFrames = []

/-- Object `i` is as its constructor left it, with that region, that
handle and its whole free list. -/
def Holds (objs : ι → Option UmemObject) (i : ι) (addr : Nat) (size : UInt64) (umem : Nat) :
    Prop :=
  ∃ cfg huge, objs i = some (.built cfg addr size huge umem)

/-- What such an object stands for in the ledger. -/
def held (addr : Nat) (size : UInt64) (umem : Nat) : List (Held Resource) :=
  [⟨.region addr size, []⟩, ⟨.handle umem, [.region addr size]⟩]

structure Inv (objs : ι → Option UmemObject) (log : List SysCall)
    (live : List (Held Resource)) : Prop where
  ledger : run (Lib.Ledger.step SysCall.event) [] log = some live
  owned : ∀ h ∈ live, ∃ i addr size umem, Holds objs i addr size umem ∧ h ∈ held addr size umem
  holds : ∀ i addr size umem, Holds objs i addr size umem → ∀ h ∈ held addr size umem, h ∈ live
  distinct : ∀ i j addr addr' size size' umem umem', Holds objs i addr size umem →
    Holds objs j addr' size' umem' → addr = addr' ∨ umem = umem' → i = j
  current : ∀ i addr size umem, Holds objs i addr size umem →
    mappedAfter addr false log = true ∧ createdAfter umem false log = true
  shape : ∀ i o, objs i = some o →
    (∃ addr size umem, Holds objs i addr size umem) ∨ o.Empty
  areas : ∀ umem size cfg, .xskUmemCreate umem none size cfg ∉ log

variable {objs : ι → Option UmemObject} {log : List SysCall} {live : List (Held Resource)}

theorem inv_empty : Inv (fun _ : ι => none) [] [] where
  ledger := rfl
  owned := by simp
  holds := by simp [Holds]
  distinct := by simp [Holds]
  current := by simp [Holds]
  shape := by simp
  areas := by simp

theorem mem_held {h : Held Resource} {addr : Nat} {size : UInt64} {umem : Nat} :
    h ∈ held addr size umem ↔
      h = ⟨.region addr size, []⟩ ∨ h = ⟨.handle umem, [.region addr size]⟩ := by
  simp [held]

theorem UmemObject.Empty.not_built {o : UmemObject} (h : o.Empty) {cfg : CtorConfig}
    {addr umem : Nat} {size : UInt64} {huge : Bool} :
    o ≠ .built cfg addr size huge umem := by
  rintro rfl
  cases h.region

theorem UmemObject.movedFrom_empty (o : UmemObject) : o.movedFrom.Empty := ⟨rfl, rfl, rfl⟩

theorem mappedAfter_append (addr : Nat) (m : Bool) (log calls : List SysCall) :
    mappedAfter addr m (log ++ calls) = mappedAfter addr (mappedAfter addr m log) calls := by
  induction log generalizing m with
  | nil => rfl
  | cons c log ih => cases c <;> simp [mappedAfter, ih]

theorem createdAfter_append (umem : Nat) (m : Bool) (log calls : List SysCall) :
    createdAfter umem m (log ++ calls) = createdAfter umem (createdAfter umem m log) calls := by
  induction log generalizing m with
  | nil => rfl
  | cons c log ih => cases c <;> simp [createdAfter, ih]

/-! ## What the operations do -/

theorem UmemObject.Empty.destroy {o : UmemObject} (h : o.Empty) : o.destroy = [] := by
  simp [UmemObject.destroy, UmemObject.deallocateRegion, h.umem, h.region]

/-- **Move assignment tears the target down as the destructor does**, and
then moves. -/
theorem UmemObject.moveAssign_eq (o other : UmemObject) :
    o.moveAssign other = ((other, other.movedFrom), o.destroy) := by
  rw [UmemObject.moveAssign, UmemObject.destroy, UmemObject.deallocateRegion]
  cases hu : o.umem <;> cases hr : o.region <;>
    simp [UmemObject.deallocateRegion]

section Steps

variable [DecidableEq ι] {w w' : World ι}

theorem World.step_construct {i : ι} {cfg : CtorConfig} {ans : Answers}
    (h : w.step (.construct i cfg ans) = some w') :
    (w.objs i = none ∧ Fresh w.log ans) ∧
      (w' = w ∨
        ∃ addr size huge, MapsRegion cfg ans addr size huge ∧
          (w' = { w with log := w.log ++ [.mmap addr size huge, .munmap addr size] } ∨
          ∃ umem, ans.create = some umem ∧
            w' = ⟨update w.objs i (some (.built cfg addr size huge umem)),
              w.log ++ [.mmap addr size huge,
                .xskUmemCreate umem (some addr) size cfg.xskConfig]⟩)) := by
  rw [World.step, Option.ite_none_right_eq_some] at h
  obtain ⟨hen, h⟩ := h
  refine ⟨hen, ?_⟩
  rcases construct_cases cfg ans with hc | ⟨addr, size, huge, hmaps, ⟨-, hc⟩ |
    ⟨umem, hcreate, ⟨-, hc⟩ | ⟨-, hc⟩⟩⟩
  · rw [hc] at h
    cases h
    left
    simp
  · rw [hc] at h
    cases h
    exact .inr ⟨addr, size, huge, hmaps, .inl rfl⟩
  · rw [hc] at h
    cases h
  · rw [hc] at h
    cases h
    exact .inr ⟨addr, size, huge, hmaps, .inr ⟨umem, hcreate, rfl⟩⟩

theorem World.step_moveConstruct {dst src : ι}
    (h : w.step (.moveConstruct dst src) = some w') :
    w.objs dst = none ∧ ∃ other, w.objs src = some other ∧
      w' = { w with
        objs := update (update w.objs dst (some other)) src (some other.movedFrom) } := by
  simp only [World.step] at h
  split at h
  next other hdst hsrc => exact ⟨hdst, other, hsrc, (Option.some.inj h).symm⟩
  next => cases h

theorem World.step_moveAssign {dst src : ι} (h : w.step (.moveAssign dst src) = some w') :
    ∃ o other, w.objs dst = some o ∧ w.objs src = some other ∧
      (dst = src ∧ w' = w ∨
        dst ≠ src ∧
          w' = ⟨update (update w.objs dst (some other)) src (some other.movedFrom),
            w.log ++ o.destroy⟩) := by
  simp only [World.step] at h
  split at h
  next o other hdst hsrc =>
    refine ⟨o, other, hdst, hsrc, ?_⟩
    split at h
    next heq => exact .inl ⟨heq, (Option.some.inj h).symm⟩
    next hne =>
      rw [UmemObject.moveAssign_eq] at h
      exact .inr ⟨hne, (Option.some.inj h).symm⟩
  next => cases h

theorem World.step_destroy {i : ι} (h : w.step (.destroy i) = some w') :
    ∃ o, w.objs i = some o ∧ w' = ⟨update w.objs i none, w.log ++ o.destroy⟩ := by
  simp only [World.step] at h
  split at h
  next o hi => exact ⟨o, hi, (Option.some.inj h).symm⟩
  next => cases h

end Steps

/-! ## Ownership is kept -/

theorem Holds.unique {i : ι} {addr addr' umem umem' : Nat}
    {size size' : UInt64} (h : Holds objs i addr size umem)
    (h' : Holds objs i addr' size' umem') :
    addr = addr' ∧ size = size' ∧ umem = umem' := by
  obtain ⟨cfg, huge, hi⟩ := h
  obtain ⟨cfg', huge', hi'⟩ := h'
  rw [hi] at hi'
  cases hi'
  exact ⟨rfl, rfl, rfl⟩

/-- An address that is not mapped is no object's. -/
theorem Inv.fresh_addr (hI : Inv objs log live) {a : Nat}
    (ha : mappedAfter a false log = false) {i : ι} {addr umem : Nat} {size : UInt64}
    (h : Holds objs i addr size umem) : a ≠ addr := by
  rintro rfl
  rw [(hI.current i a size umem h).1] at ha
  cases ha

theorem Inv.fresh_umem (hI : Inv objs log live) {u : Nat}
    (hu : createdAfter u false log = false) {i : ι} {addr umem : Nat} {size : UInt64}
    (h : Holds objs i addr size umem) : u ≠ umem := by
  rintro rfl
  rw [(hI.current i addr size u h).2] at hu
  cases hu

/-- A resource that no object holds is not live. -/
theorem Inv.not_live (hI : Inv objs log live) {r : Resource}
    (hr : ∀ i addr size umem, Holds objs i addr size umem →
      r ≠ .region addr size ∧ r ≠ .handle umem) : r ∉ names live := by
  intro hmem
  obtain ⟨h, hlive, rfl⟩ := mem_names.mp hmem
  obtain ⟨i, addr, size, umem, hholds, hheld⟩ := hI.owned h hlive
  obtain ⟨hregion, hhandle⟩ := hr i addr size umem hholds
  rcases mem_held.mp hheld with rfl | rfl
  · exact hregion rfl
  · exact hhandle rfl

theorem MapsRegion.fresh {cfg : CtorConfig} {ans : Answers} {addr : Nat}
    {size : UInt64} {huge : Bool} (h : MapsRegion cfg ans addr size huge)
    (hfresh : Fresh log ans) : mappedAfter addr false log = false := by
  cases h with
  | huge _ _ haddr => exact hfresh.1 addr haddr
  | small _ haddr => exact hfresh.2.1 addr haddr

theorem Inv.not_needed (hI : Inv objs log live) {r : Resource}
    (hr : ∀ i addr size umem, Holds objs i addr size umem → r ≠ .region addr size) :
    ∀ h ∈ live, r ∉ h.needs := by
  intro h hlive hneeds
  obtain ⟨i, addr, size, umem, hholds, hheld⟩ := hI.owned h hlive
  rcases mem_held.mp hheld with rfl | rfl
  · exact List.not_mem_nil hneeds
  · exact hr i addr size umem hholds (List.mem_singleton.mp hneeds)

/-- The ledger goes on from what is live. -/
theorem Inv.append (hI : Inv objs log live) {calls : List SysCall}
    {live' : List (Held Resource)}
    (hcalls : run (Lib.Ledger.step SysCall.event) live calls = some live') :
    run (Lib.Ledger.step SysCall.event) [] (log ++ calls) = some live' :=
  run_append.mpr ⟨live, hI.ledger, hcalls⟩

/-- A region that is not mapped is neither live nor needed. -/
theorem Inv.fresh_region (hI : Inv objs log live) {addr : Nat} (size : UInt64)
    (haddr : mappedAfter addr false log = false) :
    Resource.region addr size ∉ names live ∧
      ∀ h ∈ live, Resource.region addr size ∉ h.needs := by
  have hne : ∀ i a s u, Holds objs i a s u → Resource.region addr size ≠ .region a s := by
    intro i a s u hholds heq
    cases heq
    exact hI.fresh_addr haddr hholds rfl
  exact ⟨hI.not_live fun i a s u hholds => ⟨hne i a s u hholds, by simp⟩, hI.not_needed hne⟩

/-- Mapping a region, and unmapping it when the handle is refused. -/
theorem Inv.refused (hI : Inv objs log live) {addr : Nat} {size : UInt64} {huge : Bool}
    (haddr : mappedAfter addr false log = false) :
    Inv objs (log ++ [.mmap addr size huge, .munmap addr size]) live where
  ledger := by
    obtain ⟨hnew, hfree⟩ := hI.fresh_region size haddr
    apply hI.append
    refine run_cons.mpr ⟨_, post_acquire.mpr ⟨⟨hnew, by simp⟩, rfl⟩, ?_⟩
    exact run_cons.mpr ⟨live, post_release_new hnew (by simp) hfree, rfl⟩
  owned := hI.owned
  holds := hI.holds
  distinct := hI.distinct
  current i a s u hholds := by
    have hne := hI.fresh_addr haddr hholds
    obtain ⟨hmapped, hcreated⟩ := hI.current i a s u hholds
    rw [mappedAfter_append, createdAfter_append, hmapped, hcreated]
    simp [mappedAfter, createdAfter, hne]
  shape := hI.shape
  areas := by simpa using hI.areas

/-- Mapping a region and creating its handle. -/
theorem Inv.setup_ledger {addr umem : Nat} {size : UInt64} (xsk : XskUmemConfig) (huge : Bool)
    (hI : Inv objs log live) (haddr : mappedAfter addr false log = false)
    (humem : createdAfter umem false log = false) :
    run (Lib.Ledger.step SysCall.event) live
        [.mmap addr size huge, .xskUmemCreate umem (some addr) size xsk] =
      some (⟨.handle umem, [.region addr size]⟩ :: ⟨.region addr size, []⟩ :: live) := by
  obtain ⟨hnew, -⟩ := hI.fresh_region size haddr
  have hhandle : Resource.handle umem ∉ names live := by
    apply hI.not_live
    intro k a s u hholds
    refine ⟨by simp, fun heq => ?_⟩
    cases heq
    exact hI.fresh_umem humem hholds rfl
  refine run_cons.mpr ⟨_, post_acquire.mpr ⟨⟨hnew, by simp⟩, rfl⟩, ?_⟩
  refine run_cons.mpr ⟨_, post_acquire.mpr ⟨⟨?_, by simp⟩, rfl⟩, rfl⟩
  simpa using hhandle

/-- Deleting the handle and unmapping the region of object `i`. -/
theorem Inv.teardown_ledger {i : ι} {addr umem : Nat} {size : UInt64}
    (hI : Inv objs log live) (hi : Holds objs i addr size umem) :
    run (Lib.Ledger.step SysCall.event) live [.xskUmemDelete umem, .munmap addr size] =
      some ((live.filter fun h => h.res ≠ .handle umem).filter
        fun h => h.res ≠ .region addr size) := by
  have hregion := hI.holds i addr size umem hi _ (mem_held.mpr (.inl rfl))
  have hhandle := hI.holds i addr size umem hi _ (mem_held.mpr (.inr rfl))
  refine run_cons.mpr ⟨_, post_release.mpr ⟨⟨mem_names.mpr ⟨_, hhandle, rfl⟩, ?_⟩, rfl⟩, ?_⟩
  · exact hI.not_needed fun _ _ _ _ _ => by simp
  · refine run_cons.mpr ⟨_, post_release.mpr ⟨⟨mem_names.mpr
      ⟨⟨.region addr size, []⟩, ?_, rfl⟩, ?_⟩, rfl⟩, rfl⟩
    · exact List.mem_filter.mpr ⟨hregion, by simp⟩
    · -- a handle that needs the region is the one that was just deleted
      intro h hmem hneeds
      obtain ⟨hlive, hne⟩ := List.mem_filter.mp hmem
      obtain ⟨j, a, s, u, hj, hheld⟩ := hI.owned h hlive
      rcases mem_held.mp hheld with rfl | rfl
      · exact List.not_mem_nil hneeds
      · cases List.mem_singleton.mp hneeds
        obtain rfl := hI.distinct i j _ _ _ _ _ _ hi hj (.inl rfl)
        obtain ⟨-, -, rfl⟩ := hi.unique hj
        simp at hne

/-- Which object is the owner does not matter, only that there is one. -/
theorem Inv.permute (hI : Inv objs log live) (σ : Equiv.Perm ι) : Inv (objs ∘ σ) log live where
  ledger := hI.ledger
  owned h hmem := by
    obtain ⟨k, addr, size, umem, hk, hheld⟩ := hI.owned h hmem
    refine ⟨σ.symm k, addr, size, umem, ?_, hheld⟩
    rw [← σ.apply_symm_apply k] at hk
    exact hk
  holds k := hI.holds (σ k)
  distinct j k a a' s s' u u' hj hk hsame :=
    σ.injective (hI.distinct (σ j) (σ k) a a' s s' u u' hj hk hsame)
  current k := hI.current (σ k)
  shape k := hI.shape (σ k)
  areas := hI.areas

section Update

variable [DecidableEq ι]

variable {i k dst src : ι} {addr umem a u : Nat}
  {size s : UInt64} {cfg : CtorConfig} {huge : Bool} {o : UmemObject}

theorem holds_update_built (hi : objs i = none) :
    Holds (update objs i (some (.built cfg addr size huge umem))) k a s u ↔
      k = i ∧ a = addr ∧ s = size ∧ u = umem ∨ Holds objs k a s u := by
  by_cases hk : k = i
  · subst hk
    constructor
    · rintro ⟨cfg', huge', heq⟩
      rw [update_self] at heq
      cases heq
      exact .inl ⟨rfl, rfl, rfl, rfl⟩
    · rintro (⟨-, rfl, rfl, rfl⟩ | ⟨cfg', huge', heq⟩)
      · exact ⟨cfg, huge, update_self ..⟩
      · rw [hi] at heq
        cases heq
  · simp [Holds, hk]

/-- An object that goes, or is left empty, holds nothing. -/
theorem holds_update_empty {new : Option UmemObject} (hnew : ∀ p, new = some p → p.Empty) :
    Holds (update objs i new) k a s u ↔ k ≠ i ∧ Holds objs k a s u := by
  by_cases hk : k = i
  · subst hk
    simp only [Holds, update_self, ne_eq, not_true_eq_false, false_and, iff_false]
    rintro ⟨cfg, huge, heq⟩
    exact (hnew _ heq).not_built rfl
  · simp [Holds, hk]

/-- A constructor that completes. -/
theorem Inv.built (hI : Inv objs log live) (hi : objs i = none)
    (haddr : mappedAfter addr false log = false)
    (humem : createdAfter umem false log = false) :
    Inv (update objs i (some (.built cfg addr size huge umem)))
      (log ++ [.mmap addr size huge, .xskUmemCreate umem (some addr) size cfg.xskConfig])
      (⟨.handle umem, [.region addr size]⟩ :: ⟨.region addr size, []⟩ :: live) where
  ledger := hI.append (hI.setup_ledger cfg.xskConfig huge haddr humem)
  owned h hmem := by
    have hnew : Holds (update objs i (some (.built cfg addr size huge umem)))
        i addr size umem := (holds_update_built hi).mpr (.inl ⟨rfl, rfl, rfl, rfl⟩)
    rcases List.mem_cons.mp hmem with rfl | hmem
    · exact ⟨i, addr, size, umem, hnew, mem_held.mpr (.inr rfl)⟩
    · rcases List.mem_cons.mp hmem with rfl | hmem
      · exact ⟨i, addr, size, umem, hnew, mem_held.mpr (.inl rfl)⟩
      · obtain ⟨k, a, s, u, hholds, hheld⟩ := hI.owned h hmem
        exact ⟨k, a, s, u, (holds_update_built hi).mpr (.inr hholds), hheld⟩
  holds k a s u hholds h hheld := by
    rcases (holds_update_built hi).mp hholds with ⟨rfl, rfl, rfl, rfl⟩ | hholds
    · rcases mem_held.mp hheld with rfl | rfl
      · simp
      · simp
    · exact List.mem_cons_of_mem _ (List.mem_cons_of_mem _ (hI.holds k a s u hholds h hheld))
  distinct j k a a' s s' u u' hj hk hsame := by
    rcases (holds_update_built hi).mp hj with ⟨rfl, rfl, rfl, rfl⟩ | hold
    · rcases (holds_update_built hi).mp hk with ⟨rfl, -⟩ | hold
      · rfl
      · rcases hsame with rfl | rfl
        · exact absurd rfl (hI.fresh_addr haddr hold)
        · exact absurd rfl (hI.fresh_umem humem hold)
    · rcases (holds_update_built hi).mp hk with ⟨rfl, rfl, rfl, rfl⟩ | hold'
      · rcases hsame with rfl | rfl
        · exact absurd rfl (hI.fresh_addr haddr hold)
        · exact absurd rfl (hI.fresh_umem humem hold)
      · exact hI.distinct j k a a' s s' u u' hold hold' hsame
  current k a s u hholds := by
    rw [mappedAfter_append, createdAfter_append]
    rcases (holds_update_built hi).mp hholds with ⟨rfl, rfl, rfl, rfl⟩ | hholds
    · simp [mappedAfter, createdAfter]
    · obtain ⟨hmapped, hcreated⟩ := hI.current k a s u hholds
      simp [mappedAfter, createdAfter, hmapped, hcreated]
  shape k p hk := by
    by_cases hki : k = i
    · subst hki
      exact .inl ⟨addr, size, umem, cfg, huge, update_self ..⟩
    · rw [update_of_ne hki] at hk
      rcases hI.shape k p hk with ⟨a, s, u, hholds⟩ | hempty
      · exact .inl ⟨a, s, u, (holds_update_built hi).mpr (.inr hholds)⟩
      · exact .inr hempty
  areas := by simpa using hI.areas

/-- An object that holds nothing comes or goes. -/
theorem Inv.replace_empty {new : Option UmemObject} (hI : Inv objs log live)
    (hold : ∀ p, objs i = some p → p.Empty) (hnew : ∀ p, new = some p → p.Empty) :
    Inv (update objs i new) log live := by
  have hholds : ∀ {k a s u}, Holds (update objs i new) k a s u ↔ Holds objs k a s u := by
    intro k a s u
    rw [holds_update_empty hnew, and_iff_right_iff_imp]
    rintro ⟨cfg, huge, hk⟩ rfl
    exact (hold _ hk).not_built rfl
  refine ⟨hI.ledger, ?_, ?_, ?_, ?_, fun k p hk => ?_, hI.areas⟩
  · simpa only [hholds] using hI.owned
  · simpa only [hholds] using hI.holds
  · simpa only [hholds] using hI.distinct
  · simpa only [hholds] using hI.current
  · by_cases hki : k = i
    · subst hki
      rw [update_self] at hk
      exact .inr (hnew p hk)
    · rw [update_of_ne hki] at hk
      simpa only [hholds] using hI.shape k p hk

/-- An object that holds something is torn down. -/
theorem Inv.drop_built {new : Option UmemObject} (hI : Inv objs log live)
    (hi : Holds objs i addr size umem) (hnew : ∀ p, new = some p → p.Empty) :
    Inv (update objs i new) (log ++ [.xskUmemDelete umem, .munmap addr size])
      ((live.filter fun h => h.res ≠ .handle umem).filter fun h => h.res ≠ .region addr size) where
  ledger := hI.append (hI.teardown_ledger hi)
  owned h hmem := by
    simp only [List.mem_filter, decide_eq_true_eq] at hmem
    obtain ⟨⟨hlive, hhandle⟩, hregion⟩ := hmem
    obtain ⟨j, a, s, u, hj, hheld⟩ := hI.owned h hlive
    refine ⟨j, a, s, u, (holds_update_empty hnew).mpr ⟨?_, hj⟩, hheld⟩
    rintro rfl
    obtain ⟨rfl, rfl, rfl⟩ := hi.unique hj
    rcases mem_held.mp hheld with rfl | rfl
    · exact hregion rfl
    · exact hhandle rfl
  holds k a s u hk h hheld := by
    obtain ⟨hki, hk⟩ := (holds_update_empty hnew).mp hk
    have haddr : a ≠ addr := fun heq => hki (hI.distinct k i _ _ _ _ _ _ hk hi (.inl heq))
    have humem : u ≠ umem := fun heq => hki (hI.distinct k i _ _ _ _ _ _ hk hi (.inr heq))
    have hlive := hI.holds k a s u hk h hheld
    rcases mem_held.mp hheld with rfl | rfl
    · simp [hlive, haddr]
    · simp [hlive, humem]
  distinct j k a a' s s' u u' hj hk :=
    hI.distinct j k a a' s s' u u' ((holds_update_empty hnew).mp hj).2
      ((holds_update_empty hnew).mp hk).2
  current k a s u hk := by
    obtain ⟨hki, hk⟩ := (holds_update_empty hnew).mp hk
    have haddr : addr ≠ a := fun heq => hki (hI.distinct k i _ _ _ _ _ _ hk hi (.inl heq.symm))
    have humem : umem ≠ u := fun heq => hki (hI.distinct k i _ _ _ _ _ _ hk hi (.inr heq.symm))
    obtain ⟨hmapped, hcreated⟩ := hI.current k a s u hk
    rw [mappedAfter_append, createdAfter_append, hmapped, hcreated]
    simp [mappedAfter, createdAfter, haddr, humem]
  shape k p hk := by
    by_cases hki : k = i
    · subst hki
      rw [update_self] at hk
      exact .inr (hnew p hk)
    · rw [update_of_ne hki] at hk
      rcases hI.shape k p hk with ⟨a, s, u, hholds⟩ | hempty
      · exact .inl ⟨a, s, u, (holds_update_empty hnew).mpr ⟨hki, hholds⟩⟩
      · exact .inr hempty
  areas := by simpa using hI.areas

/-- **Destruction**, of any object. -/
theorem Inv.destroy (hI : Inv objs log live) (hi : objs i = some o) :
    ∃ live', Inv (update objs i none) (log ++ o.destroy) live' := by
  rcases hI.shape i o hi with ⟨addr, size, umem, hholds⟩ | hempty
  · obtain ⟨cfg, huge, hbuilt⟩ := id hholds
    rw [hi] at hbuilt
    cases hbuilt
    exact ⟨_, hI.drop_built hholds (by simp)⟩
  · rw [hempty.destroy, List.append_nil]
    refine ⟨live, hI.replace_empty (fun p hp => ?_) (by simp)⟩
    rw [hi] at hp
    exact Option.some.inj hp ▸ hempty

/-- **Move**, into a place where there is no object: the two places swap,
and an empty object stays behind. -/
theorem Inv.move (hI : Inv objs log live) (hdst : objs dst = none) (hsrc : objs src = some o) :
    Inv (update (update objs dst (some o)) src (some o.movedFrom)) log live := by
  have hswap : update (update objs dst (some o)) src (some o.movedFrom) =
      update (objs ∘ Equiv.swap dst src) src (some o.movedFrom) := by
    funext k
    by_cases hks : k = src
    · rw [hks, update_self, update_self]
    · rw [update_of_ne hks, update_of_ne hks, Function.comp_apply]
      by_cases hkd : k = dst
      · rw [hkd, update_self, Equiv.swap_apply_left, hsrc]
      · rw [update_of_ne hkd, Equiv.swap_apply_of_ne_of_ne hkd hks]
  rw [hswap]
  apply (hI.permute (Equiv.swap dst src)).replace_empty
  · intro p hp
    rw [Function.comp_apply, Equiv.swap_apply_right, hdst] at hp
    cases hp
  · intro p hp
    exact Option.some.inj hp ▸ o.movedFrom_empty

/-- **Every operation keeps ownership.** -/
theorem World.step_inv {w w' : World ι} {e : Life ι} (h : w.step e = some w')
    (hI : ∃ live, Inv w.objs w.log live) : ∃ live, Inv w'.objs w'.log live := by
  obtain ⟨live, hI⟩ := hI
  cases e with
  | construct i cfg ans =>
      obtain ⟨⟨hi, hfresh⟩, rfl | ⟨addr, size, huge, hmaps, rfl | ⟨umem, hcreate, rfl⟩⟩⟩ :=
        World.step_construct h
      · exact ⟨live, hI⟩
      · exact ⟨live, hI.refused (hmaps.fresh hfresh)⟩
      · exact ⟨_, hI.built hi (hmaps.fresh hfresh) (hfresh.2.2 umem hcreate)⟩
  | moveConstruct dst src =>
      obtain ⟨hdst, other, hsrc, rfl⟩ := World.step_moveConstruct h
      exact ⟨live, hI.move hdst hsrc⟩
  | moveAssign dst src =>
      obtain ⟨o, other, hdst, hsrc, ⟨-, rfl⟩ | ⟨hne, rfl⟩⟩ := World.step_moveAssign h
      · exact ⟨live, hI⟩
      · obtain ⟨live', hI'⟩ := hI.destroy hdst
        have hmoved := hI'.move (update_self ..) ((update_of_ne hne.symm ..).trans hsrc)
        rw [update_idem] at hmoved
        exact ⟨live', hmoved⟩
  | destroy i =>
      obtain ⟨o, hi, rfl⟩ := World.step_destroy h
      exact hI.destroy hi

/-! ## Moved-from objects -/

/-- The operation moves object `i` away. -/
def Life.movesFrom (i : ι) : Life ι → Prop
  | .moveConstruct _ src => src = i
  | .moveAssign dst src => src = i ∧ dst ≠ i
  | _ => False

/-- The operation ends object `i` or gives it new contents. -/
def Life.renews (i : ι) : Life ι → Prop
  | .construct j _ _ => j = i
  | .moveConstruct dst _ => dst = i
  | .moveAssign dst src => dst = i ∧ src ≠ i
  | .destroy j => j = i

variable {w w' : World ι} {e : Life ι}

theorem World.step_movesFrom (h : w.step e = some w') (hm : e.movesFrom i) :
    ∃ o, w'.objs i = some o ∧ o.Empty := by
  cases e with
  | construct j cfg ans => cases hm
  | moveConstruct dst src =>
      cases hm
      obtain ⟨-, other, -, rfl⟩ := World.step_moveConstruct h
      exact ⟨_, update_self .., other.movedFrom_empty⟩
  | moveAssign dst src =>
      obtain ⟨rfl, hne⟩ := hm
      obtain ⟨-, other, -, -, ⟨heq, -⟩ | ⟨-, rfl⟩⟩ := World.step_moveAssign h
      · exact absurd heq hne
      · exact ⟨_, update_self .., other.movedFrom_empty⟩
  | destroy j => cases hm

theorem World.step_stays_empty (h : w.step e = some w') (hr : ¬ e.renews i)
    (he : ∃ o, w.objs i = some o ∧ o.Empty) : ∃ o, w'.objs i = some o ∧ o.Empty := by
  cases e with
  | construct j cfg ans =>
      obtain ⟨-, rfl | ⟨addr, size, huge, -, rfl | ⟨umem, -, rfl⟩⟩⟩ := World.step_construct h
      · exact he
      · exact he
      · simpa only [update_of_ne (Ne.symm hr)] using he
  | moveConstruct dst src =>
      by_cases hi : src = i
      · exact World.step_movesFrom h hi
      · obtain ⟨-, other, -, rfl⟩ := World.step_moveConstruct h
        simpa only [update_of_ne (Ne.symm hi), update_of_ne (Ne.symm hr)] using he
  | moveAssign dst src =>
      obtain ⟨o, other, -, -, ⟨-, rfl⟩ | ⟨hne, rfl⟩⟩ := World.step_moveAssign h
      · exact he
      · by_cases hi : src = i
        · exact World.step_movesFrom h ⟨hi, hi ▸ hne⟩
        · have hdst : i ≠ dst := fun heq => hr ⟨heq.symm, hi⟩
          simpa only [update_of_ne (Ne.symm hi), update_of_ne hdst] using he
  | destroy j =>
      obtain ⟨o, -, rfl⟩ := World.step_destroy h
      simpa only [update_of_ne (Ne.symm hr)] using he

/-- **A moved-from object stays empty** until it is assigned to or
destroyed. -/
theorem World.run_movedFrom {before after : List (Life ι)}
    (hrun : run World.step World.empty (before ++ e :: after) = some w)
    (hm : e.movesFrom i) (hafter : ∀ e' ∈ after, ¬ e'.renews i) :
    ∃ o, w.objs i = some o ∧ o.Empty := by
  obtain ⟨u, -, hrun⟩ := run_append.mp hrun
  obtain ⟨v, hv, hrun⟩ := run_cons.mp hrun
  exact run_invariant_where (I := fun t : World ι => ∃ o, t.objs i = some o ∧ o.Empty)
    (C := fun _ e' => ¬ e'.renews i)
    (fun _ _ _ he hr ht => World.step_stays_empty ht hr he)
    (World.step_movesFrom hv hm) (meets_of_labels hafter) hrun

end Update

/-! ## Every acquisition is matched -/

/-- Each `mmap` has its `munmap` and each handle its deletion, which comes
before its region is unmapped; and the other way round. -/
structure Matched (log : List SysCall) : Prop where
  mmaps : ∀ before addr size huge after, log = before ++ .mmap addr size huge :: after →
    ∃ mid rest, after = mid ++ .munmap addr size :: rest ∧
      .munmap addr size ∉ mid ∧ ∀ huge', .mmap addr size huge' ∉ mid
  munmaps : ∀ before addr size after, log = before ++ .munmap addr size :: after →
    ∃ first huge mid, before = first ++ .mmap addr size huge :: mid ∧
      .munmap addr size ∉ mid ∧ ∀ huge', .mmap addr size huge' ∉ mid
  creates : ∀ before umem area size cfg after,
    log = before ++ .xskUmemCreate umem area size cfg :: after →
    ∃ addr, area = some addr ∧ ∃ mid rest, after = mid ++ .xskUmemDelete umem :: rest ∧
      .xskUmemDelete umem ∉ mid ∧ .munmap addr size ∉ mid ∧
      ∀ area' size' cfg', .xskUmemCreate umem area' size' cfg' ∉ mid
  deletes : ∀ before umem after, log = before ++ .xskUmemDelete umem :: after →
    ∃ first area size cfg mid, before = first ++ .xskUmemCreate umem area size cfg :: mid ∧
      .xskUmemDelete umem ∉ mid ∧
      ∀ area' size' cfg', .xskUmemCreate umem area' size' cfg' ∉ mid

theorem SysCall.event_release_region {c : SysCall} {addr : Nat} {size : UInt64}
    (h : c.event = .release (.region addr size)) : c = .munmap addr size := by
  cases c <;> cases h
  rfl

theorem SysCall.event_release_handle {c : SysCall} {umem : Nat}
    (h : c.event = .release (.handle umem)) : c = .xskUmemDelete umem := by
  cases c <;> cases h
  rfl

theorem SysCall.event_acquire_region {c : SysCall} {addr : Nat} {size : UInt64}
    {needs : List Resource} (h : c.event = .acquire (.region addr size) needs) :
    ∃ huge, c = .mmap addr size huge := by
  cases c <;> cases h
  exact ⟨_, rfl⟩

theorem SysCall.event_acquire_handle {c : SysCall} {umem : Nat} {needs : List Resource}
    (h : c.event = .acquire (.handle umem) needs) :
    ∃ area size cfg, c = .xskUmemCreate umem area size cfg := by
  cases c <;> cases h
  exact ⟨_, _, _, rfl⟩

/-- **A log that the ledger closes is matched.** -/
theorem matched_of_ledger (hrun : run (Lib.Ledger.step SysCall.event) [] log = some [])
    (hareas : ∀ umem size cfg, .xskUmemCreate umem none size cfg ∉ log) : Matched log where
  mmaps before addr size huge after hlog := by
    rw [hlog] at hrun
    obtain ⟨mid, c, rest, rfl, hc, hmid⟩ := released_after hrun rfl
    obtain rfl := SysCall.event_release_region hc
    refine ⟨mid, rest, rfl, fun hmem => ?_, fun huge' hmem => ?_⟩
    · simpa [SysCall.event, releases] using (hmid _ hmem).2.1
    · simpa [SysCall.event, acquires] using (hmid _ hmem).1
  munmaps before addr size after hlog := by
    rw [hlog] at hrun
    obtain ⟨first, c, mid, rfl, ⟨needs, hc⟩, hmid⟩ := acquired_before hrun rfl
    obtain ⟨huge, rfl⟩ := SysCall.event_acquire_region hc
    refine ⟨first, huge, mid, rfl, fun hmem => ?_, fun huge' hmem => ?_⟩
    · simpa [SysCall.event, releases] using (hmid _ hmem).2
    · simpa [SysCall.event, acquires] using (hmid _ hmem).1
  creates before umem area size cfg after hlog := by
    cases area with
    | none => exact absurd (by rw [hlog]; simp) (hareas umem size cfg)
    | some addr =>
        rw [hlog] at hrun
        obtain ⟨mid, c, rest, rfl, hc, hmid⟩ := released_after hrun rfl
        obtain rfl := SysCall.event_release_handle hc
        refine ⟨addr, rfl, mid, rest, rfl, fun hmem => ?_, fun hmem => ?_,
          fun area' size' cfg' hmem => ?_⟩
        · simpa [SysCall.event, releases] using (hmid _ hmem).2.1
        · simpa [SysCall.event, releases] using (hmid _ hmem).2.2 (.region addr size) (by simp)
        · simpa [SysCall.event, acquires] using (hmid _ hmem).1
  deletes before umem after hlog := by
    rw [hlog] at hrun
    obtain ⟨first, c, mid, rfl, ⟨needs, hc⟩, hmid⟩ := acquired_before hrun rfl
    obtain ⟨area, size, cfg, rfl⟩ := SysCall.event_acquire_handle hc
    refine ⟨first, area, size, cfg, mid, rfl, fun hmem => ?_, fun area' size' cfg' hmem => ?_⟩
    · simpa [SysCall.event, releases] using (hmid _ hmem).2
    · simpa [SysCall.event, acquires] using (hmid _ hmem).1

/-! ## Every run -/

/-- Each live resource is that of one object, which is as its constructor
left it and with which no other object shares anything; and each object
holds live resources or nothing. -/
structure SingleOwner (objs : ι → Option UmemObject) (live : List (Held Resource)) : Prop where
  owner : ∀ h ∈ live, ∃ i addr size umem,
    Holds objs i addr size umem ∧ h ∈ held addr size umem ∧
      ∀ j o, objs j = some o → o.region = some addr ∨ o.umem = some umem → j = i
  object : ∀ i o, objs i = some o →
    (∃ addr size umem, Holds objs i addr size umem ∧ ∀ h ∈ held addr size umem, h ∈ live) ∨
      o.Empty

theorem Inv.singleOwner (hI : Inv objs log live) : SingleOwner objs live where
  owner h hmem := by
    obtain ⟨i, addr, size, umem, hi, hheld⟩ := hI.owned h hmem
    refine ⟨i, addr, size, umem, hi, hheld, fun j o hj hsame => ?_⟩
    rcases hI.shape j o hj with ⟨a, s, u, hholds⟩ | hempty
    · obtain ⟨cfg, huge, hbuilt⟩ := id hholds
      rw [hj] at hbuilt
      cases hbuilt
      apply hI.distinct j i a addr s size u umem hholds hi
      simpa [UmemObject.built] using hsame
    · rw [hempty.region, hempty.umem] at hsame
      simp at hsame
  object i o hi := by
    rcases hI.shape i o hi with ⟨addr, size, umem, hholds⟩ | hempty
    · exact .inl ⟨addr, size, umem, hholds, hI.holds i addr size umem hholds⟩
    · exact .inr hempty

/-- When no object is left, nothing is live. -/
theorem Inv.nothing_live (hI : Inv objs log live) (hnone : ∀ i, objs i = none) : live = [] := by
  apply List.eq_nil_iff_forall_not_mem.mpr
  intro h hmem
  obtain ⟨i, addr, size, umem, ⟨cfg, huge, hi⟩, -⟩ := hI.owned h hmem
  rw [hnone i] at hi
  cases hi

/-- **The resources of UMEM objects have exactly one owner**, along every
sequence of constructions, moves and destructions; a moved-from object is
empty, and when all objects are gone every acquisition is matched. -/
theorem umem_single_owner {ι : Type} [DecidableEq ι] (es : List (Life ι)) (w : World ι)
    (hrun : run World.step World.empty es = some w) :
    (∃ live, run (Lib.Ledger.step SysCall.event) [] w.log = some live ∧
      SingleOwner w.objs live) ∧
    (∀ before e after i, es = before ++ e :: after → e.movesFrom i →
      (∀ e' ∈ after, ¬ e'.renews i) →
        ∃ o, w.objs i = some o ∧ o.valid = false ∧ o.base = none ∧
          (Socket.TxFrames.allocFrame o.freeFrames).1 = Socket.TxFrames.noFrame) ∧
    ((∀ i, w.objs i = none) → Matched w.log) := by
  obtain ⟨live, hI⟩ : ∃ live, Inv w.objs w.log live :=
    run_invariant (I := fun t : World ι => ∃ live, Inv t.objs t.log live)
      (fun _ _ _ hI h => World.step_inv h hI) ⟨[], inv_empty⟩ hrun
  refine ⟨⟨live, hI.ledger, hI.singleOwner⟩, ?_, fun hnone => ?_⟩
  · rintro before e after i rfl hm hafter
    obtain ⟨o, hi, hempty⟩ := World.run_movedFrom hrun hm hafter
    refine ⟨o, hi, ?_, hempty.region, ?_⟩
    · rw [UmemObject.valid, hempty.umem, Option.isSome_none]
    · rw [hempty.freeFrames, Socket.TxFrames.allocFrame]
  · have hledger := hI.ledger
    rw [hI.nothing_live hnone] at hledger
    exact matched_of_ledger hledger hI.areas

/-- A constructor on small pages at `addr`. -/
def answersAt (addr umem : Nat) : Answers := ⟨none, some addr, some umem, true⟩

/-- A move, an assignment over a live object, one to itself, a constructor
that gets no memory and one that gets no handle; then all objects go. -/
def assignOverLive : List (Life (Fin 4)) :=
  [.construct 0 { frameCount := 2 } (answersAt 4096 1), .moveConstruct 1 0,
    .construct 2 { frameCount := 1 } (answersAt 65536 2), .moveAssign 2 1, .moveAssign 2 2,
    .construct 3 { frameCount := 1 } ⟨none, none, none, true⟩,
    .construct 3 { frameCount := 1 } ⟨none, some 65536, none, true⟩,
    .destroy 0, .destroy 1, .destroy 2]

theorem umem_single_owner_assignOverLive :
    ∃ w, run World.step World.empty assignOverLive = some w ∧ (∀ i, w.objs i = none) ∧
      Matched w.log := by
  have hends : ∃ w, run World.step World.empty assignOverLive = some w := by
    rw [← Option.isSome_iff_exists]
    decide +kernel
  obtain ⟨w, hw⟩ := hends
  have hnone : ∀ i, w.objs i = none := by
    have hall : ∀ v ∈ run World.step World.empty assignOverLive, ∀ i, v.objs i = none := by
      decide +kernel
    exact hall w hw
  exact ⟨w, hw, hnone, (umem_single_owner assignOverLive w hw).2.2 hnone⟩

end UltrafastFeed.Umem
