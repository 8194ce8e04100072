import UltrafastFeed.Umem.Model

/-!
# Umem — Object

The `Umem` object itself (`umem.cpp`): its eight members, the constructor
with each of its exits, the destructor and the two moves. Pointers are
`Option Nat`, `none` being the null pointer. What the system answers is a
parameter of the constructor (`Answers`); what it is asked, as far as it
changes a resource, is returned in order (`SysCall`).

A constructor that throws leaves no object: the destructor is not run, so
what it had acquired by then is released by the failing step itself or
not at all.
-/

namespace UltrafastFeed.Umem

/-- `UmemConfig` with the fields that only the constructor reads. -/
structure CtorConfig extends UmemConfig where
  completionSize : UInt64 := 2048
  useHugePages : Bool := true
  deriving DecidableEq, Repr

/-- `xsk_umem_config`. -/
structure XskUmemConfig where
  fillSize : UInt32
  compSize : UInt32
  frameSize : UInt32
  frameHeadroom : UInt32
  flags : UInt32
  deriving DecidableEq, Repr

/-- A call that succeeded. -/
inductive SysCall where
  | mmap (addr : Nat) (size : UInt64) (huge : Bool)
  | munmap (addr : Nat) (size : UInt64)
  | xskUmemCreate (umem : Nat) (area : Option Nat) (size : UInt64) (cfg : XskUmemConfig)
  | xskUmemDelete (umem : Nat)
  deriving DecidableEq, Repr

/-- What the system answers to a constructor: the address of each `mmap`
that does not fail, the handle `xsk_umem__create` makes, and whether the
free list can be allocated. -/
structure Answers where
  hugeMap : Option Nat
  map : Option Nat
  create : Option Nat
  reserve : Bool := true
  deriving DecidableEq, Repr

/-- Why a constructor throws; `mmapFailed` has the number of bytes in the
message. -/
inductive UmemError where
  | mmapFailed (bytes : UInt64)
  | createFailed
  | reserveFailed
  deriving DecidableEq, Repr

/-- The members of a `Umem`. `fillRing` and `compRing` name the handle
whose rings they map. -/
structure UmemObject where
  cfg : CtorConfig
  region : Option Nat := none
  regionSize : UInt64 := 0
  hugePages : Bool := false
  umem : Option Nat := none
  fillRing : Option Nat := none
  compRing : Option Nat := none
  /-- With `back()` first. -/
  freeFrames : List UInt64 := []
  deriving DecidableEq, Repr

/-- `align_up`. -/
def alignUp (size alignTo : UInt64) : UInt64 := (size + alignTo - 1) &&& ~~~(alignTo - 1)

def kHugePage : UInt64 := 0x200000

def kPage : UInt64 := 4096

/-- `mmap` of no bytes fails. -/
def mmapResult (size : UInt64) (answer : Option Nat) : Option Nat :=
  if size = 0 then none else answer

/-- `std::vector<uint64_t>::max_size()`. -/
def maxFrames : UInt64 := 0xFFFFFFFFFFFFFFF

def CtorConfig.rawSize (cfg : CtorConfig) : UInt64 := cfg.frameSize * cfg.frameCount

/-- `allocate_region`. -/
def UmemObject.allocateRegion (o : UmemObject) (ans : Answers) :
    Except UmemError UmemObject × List SysCall :=
  let alignedSize := alignUp o.cfg.rawSize kHugePage
  match if o.cfg.useHugePages then mmapResult alignedSize ans.hugeMap else none with
  | some addr =>
      (.ok { o with region := some addr, regionSize := alignedSize, hugePages := true },
        [.mmap addr alignedSize true])
  | none =>
      let regionSize := alignUp o.cfg.rawSize kPage
      match mmapResult regionSize ans.map with
      | some addr =>
          (.ok { o with region := some addr, regionSize := regionSize, hugePages := false },
            [.mmap addr regionSize false])
      | none =>
          -- `region_size_` is reset before the message is formatted
          let failed := { o with region := none, regionSize := 0 }
          (.error (.mmapFailed failed.regionSize), [])

/-- `deallocate_region`. -/
def UmemObject.deallocateRegion (o : UmemObject) : UmemObject × List SysCall :=
  match o.region with
  | none => (o, [])
  | some addr => ({ o with region := none, regionSize := 0 }, [.munmap addr o.regionSize])

/-- The `xsk_cfg` that `create_umem` fills in. -/
def CtorConfig.xskConfig (cfg : CtorConfig) : XskUmemConfig where
  fillSize := cfg.fillSize.toUInt32
  compSize := cfg.completionSize.toUInt32
  frameSize := cfg.frameSize.toUInt32
  frameHeadroom := 0
  flags := 0

/-- `create_umem`. -/
def UmemObject.createUmem (o : UmemObject) (ans : Answers) :
    Except UmemError UmemObject × List SysCall :=
  match ans.create with
  | some umem =>
      (.ok { o with umem := some umem, fillRing := some umem, compRing := some umem },
        [.xskUmemCreate umem o.region o.regionSize o.cfg.xskConfig])
  | none => (.error .createFailed, o.deallocateRegion.2)

/-- `Umem::Umem(const UmemConfig&)`. -/
def construct (cfg : CtorConfig) (ans : Answers) : Except UmemError UmemObject × List SysCall :=
  match UmemObject.allocateRegion { cfg } ans with
  | (.error e, calls) => (.error e, calls)
  | (.ok o, calls) =>
      match o.createUmem ans with
      | (.error e, calls') => (.error e, calls ++ calls')
      | (.ok o, calls') =>
          -- `free_frames_.reserve` is outside of any handler
          if maxFrames < cfg.frameCount ∨ ans.reserve = false then
            (.error .reserveFailed, calls ++ calls')
          else
            (.ok { o with freeFrames := (cfg.entries cfg.frameCount.toNat).reverse },
              calls ++ calls')

/-- `Umem::~Umem`. -/
def UmemObject.destroy (o : UmemObject) : List SysCall :=
  match o.umem with
  | none => o.deallocateRegion.2
  | some umem => .xskUmemDelete umem :: { o with umem := none }.deallocateRegion.2

/-- What a move leaves of its source; a moved-from vector is empty. -/
def UmemObject.movedFrom (o : UmemObject) : UmemObject :=
  { o with region := none, regionSize := 0, umem := none, freeFrames := [] }

/-- `Umem::Umem(Umem&&)`: the new object and `other`. -/
def UmemObject.moveConstruct (other : UmemObject) : UmemObject × UmemObject :=
  ({ cfg := other.cfg
     region := other.region
     regionSize := other.regionSize
     hugePages := other.hugePages
     umem := other.umem
     fillRing := other.fillRing
     compRing := other.compRing
     freeFrames := other.freeFrames }, other.movedFrom)

/-- `Umem::operator=(Umem&&)` on two different objects: `*this` and
`other`. -/
def UmemObject.moveAssign (o other : UmemObject) :
    (UmemObject × UmemObject) × List SysCall :=
  let deleted := match o.umem with
    | none => []
    | some umem => [.xskUmemDelete umem]
  let (o', unmapped) := o.deallocateRegion
  (({ o' with
      cfg := other.cfg
      region := other.region
      regionSize := other.regionSize
      hugePages := other.hugePages
      umem := other.umem
      fillRing := other.fillRing
      compRing := other.compRing
      freeFrames := other.freeFrames }, other.movedFrom), deleted ++ unmapped)

/-- `valid()`. -/
def UmemObject.valid (o : UmemObject) : Bool := o.umem.isSome

/-- `base()`. -/
def UmemObject.base (o : UmemObject) : Option Nat := o.region

/-! ## The exits of the constructor -/

/-- A region the constructor may map: on huge pages if they are wanted and
to be had, else on small ones. -/
inductive MapsRegion (cfg : CtorConfig) (ans : Answers) : Nat → UInt64 → Bool → Prop where
  | huge {addr : Nat} (hwanted : cfg.useHugePages = true)
      (hsize : alignUp cfg.rawSize kHugePage ≠ 0) (haddr : ans.hugeMap = some addr) :
      MapsRegion cfg ans addr (alignUp cfg.rawSize kHugePage) true
  | small {addr : Nat} (hsize : alignUp cfg.rawSize kPage ≠ 0) (haddr : ans.map = some addr) :
      MapsRegion cfg ans addr (alignUp cfg.rawSize kPage) false

/-- What a constructor that completes leaves. -/
def UmemObject.built (cfg : CtorConfig) (addr : Nat) (size : UInt64) (huge : Bool)
    (umem : Nat) : UmemObject where
  cfg := cfg
  region := some addr
  regionSize := size
  hugePages := huge
  umem := some umem
  fillRing := some umem
  compRing := some umem
  freeFrames := (cfg.entries cfg.frameCount.toNat).reverse

theorem mmapResult_some {size : UInt64} {answer : Option Nat} {addr : Nat} :
    mmapResult size answer = some addr ↔ size ≠ 0 ∧ answer = some addr := by
  rw [mmapResult]
  split <;> simp_all

theorem allocateRegion_cases (cfg : CtorConfig) (ans : Answers) :
    UmemObject.allocateRegion { cfg } ans = (.error (.mmapFailed 0), []) ∨
      ∃ addr size huge, MapsRegion cfg ans addr size huge ∧
        UmemObject.allocateRegion { cfg } ans =
          (.ok { cfg, region := some addr, regionSize := size, hugePages := huge },
            [.mmap addr size huge]) := by
  rw [UmemObject.allocateRegion]
  dsimp only
  split
  · rename_i addr hhuge
    right
    rw [Option.ite_none_right_eq_some, mmapResult_some] at hhuge
    exact ⟨addr, _, true, .huge hhuge.1 hhuge.2.1 hhuge.2.2, rfl⟩
  · split
    · rename_i addr hsmall
      right
      rw [mmapResult_some] at hsmall
      exact ⟨addr, _, false, .small hsmall.1 hsmall.2, rfl⟩
    · exact .inl rfl

/-- **The exits of the constructor**: nothing is mapped; the handle is
refused and the region unmapped; the free list cannot be allocated and
both stay; or the object is built. -/
theorem construct_cases (cfg : CtorConfig) (ans : Answers) :
    construct cfg ans = (.error (.mmapFailed 0), []) ∨
    ∃ addr size huge, MapsRegion cfg ans addr size huge ∧
      (ans.create = none ∧
        construct cfg ans = (.error .createFailed, [.mmap addr size huge, .munmap addr size]) ∨
      ∃ umem, ans.create = some umem ∧
        ((maxFrames < cfg.frameCount ∨ ans.reserve = false) ∧
          construct cfg ans = (.error .reserveFailed,
            [.mmap addr size huge, .xskUmemCreate umem (some addr) size cfg.xskConfig]) ∨
        ¬ (maxFrames < cfg.frameCount ∨ ans.reserve = false) ∧
          construct cfg ans = (.ok (.built cfg addr size huge umem),
            [.mmap addr size huge, .xskUmemCreate umem (some addr) size cfg.xskConfig]))) := by
  rcases allocateRegion_cases cfg ans with hmap | ⟨addr, size, huge, hmaps, hmap⟩
  · left
    rw [construct, hmap]
  · right
    refine ⟨addr, size, huge, hmaps, ?_⟩
    rw [construct, hmap]
    cases hcreate : ans.create with
    | none =>
        left
        simp [UmemObject.createUmem, UmemObject.deallocateRegion, hcreate]
    | some umem =>
        right
        refine ⟨umem, rfl, ?_⟩
        simp only [UmemObject.createUmem, hcreate]
        by_cases hreserve : maxFrames < cfg.frameCount ∨ ans.reserve = false
        · rw [if_pos hreserve]
          exact .inl ⟨hreserve, rfl⟩
        · rw [if_neg hreserve]
          exact .inr ⟨hreserve, rfl⟩

/-- What a constructor that completes did. -/
theorem construct_ok {cfg : CtorConfig} {ans : Answers} {o : UmemObject} {calls : List SysCall}
    (h : construct cfg ans = (.ok o, calls)) :
    ∃ addr size huge umem, MapsRegion cfg ans addr size huge ∧ ans.create = some umem ∧
      o = .built cfg addr size huge umem ∧
      calls = [.mmap addr size huge, .xskUmemCreate umem (some addr) size cfg.xskConfig] := by
  rcases construct_cases cfg ans with hc | ⟨addr, size, huge, hmaps, ⟨-, hc⟩ |
    ⟨umem, hcreate, ⟨-, hc⟩ | ⟨-, hc⟩⟩⟩
  · rw [hc] at h
    cases h
  · rw [hc] at h
    cases h
  · rw [hc] at h
    cases h
  · rw [hc] at h
    cases h
    exact ⟨addr, size, huge, umem, hmaps, hcreate, rfl, rfl⟩

end UltrafastFeed.Umem
