import Mathlib.Data.Nat.Bitwise
import UltrafastFeed.Umem.Conservation
import UltrafastFeed.Umem.Object

/-!
# Umem — Geometry

Which configurations that the constructor accepts describe a region its
frames fit into. Four computations could wrap: the product that is the
raw size, its rounding up to a page, the offsets, and the conversion of
`frame_size` to the 32 bits that the kernel is given.

The rounding is harmless: when it wraps it wraps to zero, and `mmap` of
no bytes fails. The offsets are below the product. So what is left is
that the product and `frame_size` fit, and nothing in the constructor
asks for that.
-/

namespace UltrafastFeed.Umem

/-! ## Rounding up -/

/-- Masking out the low `k` bits rounds down. -/
theorem and_high {x k : Nat} (hx : x < 2 ^ 64) (hk : k ≤ 64) :
    x &&& (2 ^ 64 - 2 ^ k) = x / 2 ^ k * 2 ^ k := by
  have hmask : 2 ^ 64 - 2 ^ k = (2 ^ (64 - k) - 1) * 2 ^ k := by
    rw [Nat.sub_mul, Nat.one_mul, ← Nat.pow_add, Nat.sub_add_cancel hk]
  apply Nat.eq_of_testBit_eq
  intro i
  rw [Nat.testBit_and, hmask, Nat.testBit_mul_two_pow, Nat.testBit_mul_two_pow,
    Nat.testBit_two_pow_sub_one, Nat.testBit_div_two_pow]
  by_cases hi : k ≤ i
  · rw [Nat.sub_add_cancel hi]
    by_cases hlt : i < 64
    · have hsub : i - k < 64 - k := by omega
      simp [hi, hsub]
    · have hpow : 2 ^ 64 ≤ 2 ^ i := Nat.pow_le_pow_right (by decide) (by omega)
      have hbit : x.testBit i = false := Nat.testBit_lt_two_pow (Nat.lt_of_lt_of_le hx hpow)
      simp [hbit]
  · simp [hi]

variable {size alignTo : UInt64} {k : Nat}

/-- `align_up`, with its wrapping addition. -/
theorem alignUp_toNat (halign : alignTo.toNat = 2 ^ k) :
    (alignUp size alignTo).toNat =
      (size.toNat + (2 ^ k - 1)) % 2 ^ 64 / 2 ^ k * 2 ^ k := by
  have hlt : 2 ^ k < 2 ^ 64 := halign ▸ alignTo.toNat_lt
  have hk : k ≤ 64 := Nat.le_of_lt ((Nat.pow_lt_pow_iff_right (by decide)).mp hlt)
  have hpos : 0 < 2 ^ k := Nat.two_pow_pos k
  have hmask : (~~~(alignTo - 1)).toNat = 2 ^ 64 - 2 ^ k := by
    rw [UInt64.toNat_not, UInt64.toNat_sub, halign]
    simp only [UInt64.reduceToNat, UInt64.size]
    omega
  have hsum : (size + alignTo - 1).toNat = (size.toNat + (2 ^ k - 1)) % 2 ^ 64 := by
    rw [UInt64.toNat_sub, UInt64.toNat_add, halign]
    simp only [UInt64.reduceToNat]
    omega
  rw [alignUp, UInt64.toNat_and, hmask, hsum]
  exact and_high (Nat.mod_lt _ (by decide)) hk

theorem alignUp_dvd (halign : alignTo.toNat = 2 ^ k) : 2 ^ k ∣ (alignUp size alignTo).toNat := by
  rw [alignUp_toNat halign]
  exact Nat.dvd_mul_left _ _

/-- **Rounding up never makes a size smaller but zero.** -/
theorem alignUp_ge (halign : alignTo.toNat = 2 ^ k) (hne : alignUp size alignTo ≠ 0) :
    size.toNat ≤ (alignUp size alignTo).toNat := by
  have hpos : 0 < 2 ^ k := Nat.two_pow_pos k
  by_cases hwrap : size.toNat + (2 ^ k - 1) < 2 ^ 64
  · rw [alignUp_toNat halign, Nat.mod_eq_of_lt hwrap]
    have hmod := Nat.div_add_mod' (size.toNat + (2 ^ k - 1)) (2 ^ k)
    have hlt := Nat.mod_lt (size.toNat + (2 ^ k - 1)) hpos
    omega
  · -- a sum that wraps is below `2 ^ k` and rounds down to nothing
    have hlt : 2 ^ k < 2 ^ 64 := halign ▸ alignTo.toNat_lt
    have hsize := size.toNat_lt
    have hsmall : (size.toNat + (2 ^ k - 1)) % 2 ^ 64 < 2 ^ k := by
      rw [Nat.mod_eq_sub_mod (Nat.not_lt.mp hwrap), Nat.mod_eq_of_lt (by omega)]
      omega
    have hzero : (alignUp size alignTo).toNat = 0 := by
      rw [alignUp_toNat halign, Nat.div_eq_of_lt hsmall, Nat.zero_mul]
    exact absurd (UInt64.toNat_inj.mp hzero) hne

/-! ## The region -/

/-- The page size the region is mapped with. -/
def UmemObject.pageSize (o : UmemObject) : Nat := if o.hugePages then 2 ^ 21 else 2 ^ 12

/-- What `xsk_umem__create` asks of a frame size. -/
def XskAccepts (frameSize : UInt32) : Prop :=
  frameSize.toNat.isPowerOfTwo ∧ 2048 ≤ frameSize.toNat ∧ frameSize.toNat ≤ 4096

/-- `a` is the offset of one of the frames. -/
def UmemObject.IsFrame (o : UmemObject) (a : UInt64) : Prop :=
  ∃ i < o.cfg.frameCount.toNat, a = o.cfg.frameOffset (UInt64.ofNat i)

/-- The region, the frames and what the kernel was told agree. -/
structure SoundGeometry (o : UmemObject) (calls : List SysCall) : Prop where
  holdsFrames : o.cfg.frameSize.toNat * o.cfg.frameCount.toNat ≤ o.regionSize.toNat
  wholePages : o.pageSize ∣ o.regionSize.toNat
  inside : ∀ i < o.cfg.frameCount.toNat,
    (o.cfg.frameOffset (UInt64.ofNat i)).toNat + o.cfg.frameSize.toNat ≤ o.regionSize.toNat
  disjoint : ∀ i < o.cfg.frameCount.toNat, ∀ j < o.cfg.frameCount.toNat, i ≠ j →
    (o.cfg.frameOffset (UInt64.ofNat i)).toNat + o.cfg.frameSize.toNat ≤
        (o.cfg.frameOffset (UInt64.ofNat j)).toNat ∨
      (o.cfg.frameOffset (UInt64.ofNat j)).toNat + o.cfg.frameSize.toNat ≤
        (o.cfg.frameOffset (UInt64.ofNat i)).toNat
  freeList : ∀ a ∈ o.freeFrames, o.IsFrame a
  fillRing : ∀ reserved ≤ o.cfg.preload, ∀ a ∈ o.cfg.entries reserved, o.IsFrame a
  kernelFrameSize : ∀ umem area size xsk, .xskUmemCreate umem area size xsk ∈ calls →
    xsk.frameSize.toNat = o.cfg.frameSize.toNat

variable {cfg : CtorConfig} {ans : Answers} {addr umem : Nat} {huge : Bool}

theorem MapsRegion.ge (h : MapsRegion cfg ans addr size huge) :
    cfg.rawSize.toNat ≤ size.toNat := by
  cases h with
  | huge _ hsize _ => exact alignUp_ge (k := 21) rfl hsize
  | small hsize _ => exact alignUp_ge (k := 12) rfl hsize

theorem MapsRegion.wholePages (h : MapsRegion cfg ans addr size huge) :
    (UmemObject.built cfg addr size huge umem).pageSize ∣ size.toNat := by
  cases h with
  | huge _ _ _ => exact alignUp_dvd (k := 21) rfl
  | small _ _ => exact alignUp_dvd (k := 12) rfl

theorem isFrame_of_mem_entries {o : UmemObject} {n : Nat} {a : UInt64}
    (hn : n ≤ o.cfg.frameCount.toNat) (ha : a ∈ o.cfg.entries n) : o.IsFrame a := by
  obtain ⟨i, hi, rfl⟩ := List.mem_map.mp ha
  exact ⟨i, Nat.lt_of_lt_of_le (List.mem_range.mp hi) hn, rfl⟩

theorem disjoint_multiples {i j n : Nat} (hne : i ≠ j) :
    i * n + n ≤ j * n ∨ j * n + n ≤ i * n := by
  rcases Nat.lt_or_gt_of_ne hne with h | h
  · left
    rw [← Nat.succ_mul]
    exact Nat.mul_le_mul_right n h
  · right
    rw [← Nat.succ_mul]
    exact Nat.mul_le_mul_right n h

/-- A product and a frame size that fit make the geometry sound. -/
theorem soundGeometry_of_fits (hmaps : MapsRegion cfg ans addr size huge)
    (hpos : 0 < cfg.frameSize.toNat) (hsmall : cfg.frameSize.toNat < 2 ^ 32)
    (hfits : cfg.frameSize.toNat * cfg.frameCount.toNat < 2 ^ 64) :
    SoundGeometry (.built cfg addr size huge umem)
      [.mmap addr size huge, .xskUmemCreate umem (some addr) size cfg.xskConfig] := by
  have hregion : cfg.frameSize.toNat * cfg.frameCount.toNat ≤ size.toNat := by
    have hge := hmaps.ge
    rw [CtorConfig.rawSize, UInt64.toNat_mul, Nat.mod_eq_of_lt hfits] at hge
    exact hge
  have hoff := offsetsFit_of_product hpos hfits
  refine ⟨hregion, hmaps.wholePages, fun i hi => ?_, fun i hi j hj hne => ?_,
    fun a ha => ?_, fun reserved hle a ha => ?_, fun u a s xsk hcall => ?_⟩
  · have hval := frameOffset_toNat hoff hi
    calc (cfg.frameOffset (UInt64.ofNat i)).toNat + cfg.frameSize.toNat
        = cfg.frameSize.toNat * (i + 1) := by rw [hval, Nat.mul_comm, Nat.mul_succ]
      _ ≤ cfg.frameSize.toNat * cfg.frameCount.toNat := Nat.mul_le_mul_left _ hi
      _ ≤ size.toNat := hregion
  · have hi' := frameOffset_toNat hoff hi
    have hj' := frameOffset_toNat hoff hj
    simp only [UmemObject.built] at hi' hj' ⊢
    rw [hi', hj']
    exact disjoint_multiples hne
  · exact isFrame_of_mem_entries (Nat.le_refl _) (List.mem_reverse.mp ha)
  · exact isFrame_of_mem_entries (Nat.le_trans hle (preload_le _)) ha
  · obtain ⟨-, -, -, hxsk⟩ : u = umem ∧ a = some addr ∧ s = size ∧ xsk = cfg.xskConfig := by
      simpa using hcall
    rw [hxsk, CtorConfig.xskConfig, UInt64.toNat_toUInt32]
    exact Nat.mod_eq_of_lt hsmall

/-- **The geometry of an accepted configuration is sound exactly when
`frame_size` fits 32 bits and `frame_size * frame_count` fits 64.** -/
theorem umem_geometry_iff (cfg : CtorConfig) (ans : Answers) (o : UmemObject)
    (calls : List SysCall)
    (hctor : construct cfg ans = (.ok o, calls))
    (hxsk : ans.create.isSome = true ↔ XskAccepts cfg.xskConfig.frameSize) :
    SoundGeometry o calls ↔
      cfg.frameSize.toNat < 2 ^ 32 ∧
        cfg.frameSize.toNat * cfg.frameCount.toNat < 2 ^ 64 := by
  obtain ⟨addr, size, huge, umem, hmaps, hcreate, rfl, rfl⟩ := construct_ok hctor
  constructor
  · intro hsound
    refine ⟨?_, Nat.lt_of_le_of_lt hsound.holdsFrames size.toNat_lt⟩
    have hkernel := hsound.kernelFrameSize umem (some addr) size cfg.xskConfig (by simp)
    exact hkernel ▸ cfg.xskConfig.frameSize.toNat_lt
  · rintro ⟨hsmall, hfits⟩
    obtain ⟨-, hmin, -⟩ := hxsk.mp (by rw [hcreate]; rfl)
    rw [CtorConfig.xskConfig, UInt64.toNat_toUInt32, Nat.mod_eq_of_lt hsmall] at hmin
    exact soundGeometry_of_fits hmaps (by omega) hsmall hfits

/-- Huge pages are not to be had, small ones are. -/
def smallPagesOnly : Answers where
  hugeMap := none
  map := some 0x7F0000000000
  create := some 1

/-- Two frames of the default size. -/
def twoPages : CtorConfig := { frameCount := 2 }

/-- Their object, and the calls that made it. -/
def twoPagesBuilt : UmemObject × List SysCall :=
  (.built twoPages 0x7F0000000000 8192 false 1,
    [.mmap 0x7F0000000000 8192 false,
      .xskUmemCreate 1 (some 0x7F0000000000) 8192 ⟨2048, 2048, 4096, 0, 0⟩])

theorem umem_geometry_iff_twoPages :
    construct twoPages smallPagesOnly = (.ok twoPagesBuilt.1, twoPagesBuilt.2) ∧
      (SoundGeometry twoPagesBuilt.1 twoPagesBuilt.2 ↔
        twoPages.frameSize.toNat < 2 ^ 32 ∧
          twoPages.frameSize.toNat * twoPages.frameCount.toNat < 2 ^ 64) := by
  have hctor : construct twoPages smallPagesOnly = (.ok twoPagesBuilt.1, twoPagesBuilt.2) := by
    decide +kernel
  have haccepts : XskAccepts twoPages.xskConfig.frameSize :=
    ⟨⟨12, rfl⟩, by decide, by decide⟩
  exact ⟨hctor, umem_geometry_iff _ _ _ _ hctor (iff_of_true rfl haccepts)⟩

/-- The kernel sees frames of 4096 bytes. -/
def oversized : CtorConfig := { frameSize := 0x8000000000001000, frameCount := 2 }

/-- The raw size wraps to 8192, and the second frame starts past the end
of the region. -/
theorem oversized_unsound :
    ∃ o calls, construct oversized smallPagesOnly = (.ok o, calls) ∧
      XskAccepts oversized.xskConfig.frameSize ∧ o.regionSize = 8192 ∧
      o.cfg.frameOffset 1 = 0x8000000000001000 ∧ ¬ SoundGeometry o calls := by
  refine ⟨.built oversized 0x7F0000000000 8192 false 1,
    [.mmap 0x7F0000000000 8192 false,
      .xskUmemCreate 1 (some 0x7F0000000000) 8192 ⟨2048, 2048, 4096, 0, 0⟩],
    by decide +kernel, ⟨⟨12, rfl⟩, by decide, by decide⟩, rfl, by decide, fun hsound => ?_⟩
  have hinside := hsound.inside 1 (by decide)
  revert hinside
  decide +kernel

end UltrafastFeed.Umem
