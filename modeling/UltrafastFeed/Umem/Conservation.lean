import UltrafastFeed.Umem.Model

/-!
# Umem — Conservation

What each step does (one inversion lemma per action), and from it the
one law that every result about frames rests on: a frame is counted in
the fill ring, in the kernel, in the RX ring and with the application,
and no step but the submit of `populate_fill_ring` raises its count. A
count falls only where a refused `rx_release` drops descriptors, and
these are kept in `lost`, so the sum is CONSTANT.
-/

namespace UltrafastFeed.Umem

variable {x : Libxdp} {cfg : UmemConfig} {s s' : State}

/-! ## What each step does -/

theorem step_populate (h : step x cfg s .populate = some s') :
    s.user = .idle ∧
      s' = { s with user := .populating (x.reserve s.fill cfg.preload) } := by
  simp only [step] at h
  split at h
  next hu => exact ⟨hu, (Option.some.inj h).symm⟩
  next => cases h

theorem step_populateSubmit (h : step x cfg s .populateSubmit = some s') :
    ∃ reserved, s.user = .populating reserved ∧
      s' = { s with
        fill := { s.fill with queue := s.fill.queue ++ cfg.entries reserved }
        user := .idle } := by
  simp only [step] at h
  split at h
  next reserved hu => exact ⟨reserved, hu, (Option.some.inj h).symm⟩
  next => cases h

theorem step_rxBurst {nb rcvd : Nat} (h : step x cfg s (.rxBurst nb rcvd) = some s') :
    s.user = .idle ∧ rcvd ≤ nb % 2 ^ 32 ∧ rcvd ≤ s.rx.length ∧
      s' = { s with user := .bursting rcvd } := by
  simp only [step] at h
  split at h
  next hu =>
    split at h
    next hk => exact ⟨hu, hk.1, hk.2, (Option.some.inj h).symm⟩
    next => cases h
  next => cases h

theorem step_rxBurstRelease (h : step x cfg s .rxBurstRelease = some s') :
    ∃ rcvd, s.user = .bursting rcvd ∧
      s' = { s with
        rx := s.rx.drop rcvd
        held := s.held ++ s.rx.take rcvd
        user := .idle } := by
  simp only [step] at h
  split at h
  next rcvd hu => exact ⟨rcvd, hu, (Option.some.inj h).symm⟩
  next => cases h

theorem step_rxRelease {descs rest : List RxDesc}
    (h : step x cfg s (.rxRelease descs rest) = some s') :
    s.user = .idle ∧ (descs ++ rest).Perm s.held ∧
      (descs = [] ∧ s' = s ∨
        descs ≠ [] ∧ s' = { s with
          held := rest
          user := .releasing descs (x.reserve s.fill (descs.length % 2 ^ 32)) }) := by
  simp only [step] at h
  split at h
  next hu =>
    split at h
    next hp =>
      split at h
      next hd => exact ⟨hu, hp, .inl ⟨hd, (Option.some.inj h).symm⟩⟩
      next hd => exact ⟨hu, hp, .inr ⟨hd, (Option.some.inj h).symm⟩⟩
    next => cases h
  next => cases h

theorem step_rxReleaseSubmit (h : step x cfg s .rxReleaseSubmit = some s') :
    ∃ descs reserved, s.user = .releasing descs reserved ∧
      s' = { s with
        fill := { s.fill with
          queue := s.fill.queue ++ (descs.take reserved).map RxDesc.addr }
        user := .idle
        lost := s.lost ++ descs.drop reserved } := by
  simp only [step] at h
  split at h
  next descs reserved hu => exact ⟨descs, reserved, hu, (Option.some.inj h).symm⟩
  next => cases h

theorem step_allocFrame (h : step x cfg s .allocFrame = some s') :
    s.freeFrames = [] ∧ s' = s ∨
      ∃ offset rest, s.freeFrames = offset :: rest ∧
        s' = { s with freeFrames := rest, out := offset :: s.out } := by
  simp only [step] at h
  split at h
  next hf => exact .inl ⟨hf, (Option.some.inj h).symm⟩
  next offset rest hf => exact .inr ⟨offset, rest, hf, (Option.some.inj h).symm⟩

theorem step_freeFrame {offset : UInt64} (h : step x cfg s (.freeFrame offset) = some s') :
    offset ∈ s.out ∧
      s' = { s with freeFrames := offset :: s.freeFrames, out := s.out.erase offset } := by
  simp only [step] at h
  split at h
  next ho => exact ⟨ho, (Option.some.inj h).symm⟩
  next => cases h

theorem step_kernelTake (h : step x cfg s .kernelTake = some s') :
    ∃ a rest, s.fill.queue = a :: rest ∧
      s' = { s with
        fill := { s.fill with queue := rest, unpublished := s.fill.unpublished + 1 }
        kernel := s.kernel ++ [a] } := by
  simp only [step] at h
  split at h
  next => cases h
  next a rest hq => exact ⟨a, rest, hq, (Option.some.inj h).symm⟩

theorem step_kernelPublish {k : Nat} (h : step x cfg s (.kernelPublish k) = some s') :
    k ≤ s.fill.unpublished ∧
      s' = { s with fill := { s.fill with unpublished := s.fill.unpublished - k } } := by
  simp only [step] at h
  split at h
  next hk => exact ⟨hk, (Option.some.inj h).symm⟩
  next => cases h

theorem step_kernelPost {i : Nat} {d : RxDesc}
    (h : step x cfg s (.kernelPost i d) = some s') :
    ∃ hi : i < s.kernel.length, cfg.frameOf d.addr = cfg.frameOf s.kernel[i] ∧
      s' = { s with kernel := s.kernel.eraseIdx i, rx := s.rx ++ [d] } := by
  simp only [step] at h
  split at h
  next a ha =>
    obtain ⟨hi, rfl⟩ := List.getElem?_eq_some_iff.mp ha
    split at h
    next hf => exact ⟨hi, hf, (Option.some.inj h).symm⟩
    next => cases h
  next => cases h

/-! ## Counting frames -/

/-- How often frame `i` occurs among the addresses `as`. -/
def UmemConfig.count (cfg : UmemConfig) (i : Nat) (as : List UInt64) : Nat :=
  as.countP fun a => cfg.frameOf a = i

/-- How often frame `i` occurs among the descriptors `ds`. -/
def UmemConfig.countDescs (cfg : UmemConfig) (i : Nat) (ds : List RxDesc) : Nat :=
  ds.countP fun d => cfg.frameOf d.addr = i

section Count

variable (cfg) (i : Nat)

@[simp] theorem count_nil : cfg.count i [] = 0 := rfl

@[simp] theorem count_append (as bs : List UInt64) :
    cfg.count i (as ++ bs) = cfg.count i as + cfg.count i bs :=
  List.countP_append

@[simp] theorem count_cons (a : UInt64) (as : List UInt64) :
    cfg.count i (a :: as) = cfg.count i as + if cfg.frameOf a = i then 1 else 0 := by
  simp [UmemConfig.count, List.countP_cons]

@[simp] theorem countDescs_nil : cfg.countDescs i [] = 0 := rfl

@[simp] theorem countDescs_append (as bs : List RxDesc) :
    cfg.countDescs i (as ++ bs) = cfg.countDescs i as + cfg.countDescs i bs :=
  List.countP_append

@[simp] theorem countDescs_cons (d : RxDesc) (ds : List RxDesc) :
    cfg.countDescs i (d :: ds)
      = cfg.countDescs i ds + if cfg.frameOf d.addr = i then 1 else 0 := by
  simp [UmemConfig.countDescs, List.countP_cons]

@[simp] theorem count_addrs (ds : List RxDesc) :
    cfg.count i (ds.map RxDesc.addr) = cfg.countDescs i ds :=
  List.countP_map

theorem countDescs_split (k : Nat) (ds : List RxDesc) :
    cfg.countDescs i (ds.take k) + cfg.countDescs i (ds.drop k) = cfg.countDescs i ds := by
  rw [← countDescs_append, List.take_append_drop]

theorem count_eraseIdx {as : List UInt64} {k : Nat} (hk : k < as.length) :
    cfg.count i (as.eraseIdx k) + (if cfg.frameOf as[k] = i then 1 else 0)
      = cfg.count i as := by
  rw [← count_cons]
  exact (List.getElem_cons_eraseIdx_perm hk).countP_eq _

end Count

theorem countDescs_perm {as bs : List RxDesc} (h : as.Perm bs) (i : Nat) :
    cfg.countDescs i as = cfg.countDescs i bs :=
  h.countP_eq _

theorem count_pos {as : List UInt64} {a : UInt64} (h : a ∈ as) :
    0 < cfg.count (cfg.frameOf a) as :=
  List.countP_pos_iff.mpr ⟨a, h, decide_eq_true rfl⟩

theorem countDescs_pos {ds : List RxDesc} {d : RxDesc} (h : d ∈ ds) :
    0 < cfg.countDescs (cfg.frameOf d.addr) ds :=
  List.countP_pos_iff.mpr ⟨d, h, decide_eq_true rfl⟩

/-! ## The law -/

/-- The descriptors of the `rx_release` the application is inside of. -/
def User.inHand : User → List RxDesc
  | .releasing descs _ => descs
  | _ => []

/-- How often frame `i` occurs in the fill ring, with the kernel, in the
RX ring and with the application. -/
def State.occ (cfg : UmemConfig) (s : State) (i : Nat) : Nat :=
  cfg.count i s.fill.queue + cfg.count i s.kernel + cfg.countDescs i s.rx
    + cfg.countDescs i s.held + cfg.countDescs i s.user.inHand

theorem occ_init (cfg : UmemConfig) (i : Nat) : (init cfg).occ cfg i = 0 := rfl

def AtMostOnce (cfg : UmemConfig) (s : State) : Prop := ∀ i, s.occ cfg i ≤ 1

/-- **Conservation.** A step other than the submit of
`populate_fill_ring` moves frames around and creates none. -/
theorem step_conserves {a : Action} (h : step x cfg s a = some s')
    (ha : a ≠ .populateSubmit) (i : Nat) :
    s'.occ cfg i + cfg.countDescs i s'.lost = s.occ cfg i + cfg.countDescs i s.lost := by
  cases a with
  | populate =>
      obtain ⟨hu, rfl⟩ := step_populate h
      simp [State.occ, hu, User.inHand]
  | populateSubmit => exact absurd rfl ha
  | rxBurst nb rcvd =>
      obtain ⟨hu, -, -, rfl⟩ := step_rxBurst h
      simp [State.occ, hu, User.inHand]
  | rxBurstRelease =>
      obtain ⟨rcvd, hu, rfl⟩ := step_rxBurstRelease h
      have hsplit := countDescs_split cfg i rcvd s.rx
      simp only [State.occ, hu, User.inHand, countDescs_append]
      omega
  | rxRelease descs rest =>
      obtain ⟨hu, hp, hcase⟩ := step_rxRelease h
      rcases hcase with ⟨-, rfl⟩ | ⟨-, rfl⟩
      · rfl
      · have hheld : cfg.countDescs i (descs ++ rest) = cfg.countDescs i s.held :=
          countDescs_perm hp i
        rw [countDescs_append] at hheld
        simp only [State.occ, hu, User.inHand, countDescs_nil]
        omega
  | rxReleaseSubmit =>
      obtain ⟨descs, reserved, hu, rfl⟩ := step_rxReleaseSubmit h
      have hsplit := countDescs_split cfg i reserved descs
      simp only [State.occ, hu, User.inHand, count_append, count_addrs, countDescs_append,
        countDescs_nil]
      omega
  | allocFrame =>
      rcases step_allocFrame h with ⟨-, rfl⟩ | ⟨offset, rest, -, rfl⟩ <;> rfl
  | freeFrame offset =>
      obtain ⟨-, rfl⟩ := step_freeFrame h
      rfl
  | kernelTake =>
      obtain ⟨a, rest, hq, rfl⟩ := step_kernelTake h
      simp only [State.occ, hq, count_append, count_cons, count_nil]
      omega
  | kernelPublish k =>
      obtain ⟨-, rfl⟩ := step_kernelPublish h
      rfl
  | kernelPost k d =>
      obtain ⟨hk, hf, rfl⟩ := step_kernelPost h
      have herase := count_eraseIdx cfg i hk
      simp only [State.occ, countDescs_append, countDescs_cons, countDescs_nil, hf]
      omega

/-- What a step leaves alone: no step resizes the ring, only the submit
of `rx_release` loses descriptors, only `alloc_frame` and `free_frame`
touch the free list, and slots are reserved by the call that uses them. -/
structure StepFrame (x : Libxdp) (cfg : UmemConfig) (s : State) (a : Action) (s' : State) :
    Prop where
  size : s'.fill.size = s.fill.size
  lost : a ≠ .rxReleaseSubmit → s'.lost = s.lost
  tx : a ≠ .allocFrame → (∀ o, a ≠ .freeFrame o) →
    s'.freeFrames = s.freeFrames ∧ s'.out = s.out
  populating : ∀ r, s'.user = .populating r →
    s.user = .populating r ∨ a = .populate ∧ r = x.reserve s.fill cfg.preload
  releasing : ∀ ds r, s'.user = .releasing ds r → s.user = .releasing ds r ∨
    ∃ rest, a = .rxRelease ds rest ∧ r = x.reserve s.fill (ds.length % 2 ^ 32)

theorem stepFrame_of_idle {a : Action} (hsize : s'.fill.size = s.fill.size)
    (hlost : a ≠ .rxReleaseSubmit → s'.lost = s.lost)
    (htx : s'.freeFrames = s.freeFrames ∧ s'.out = s.out)
    (hp : ∀ r, s'.user ≠ .populating r) (hr : ∀ ds r, s'.user ≠ .releasing ds r) :
    StepFrame x cfg s a s' :=
  ⟨hsize, hlost, fun _ _ => htx, fun r h => absurd h (hp r), fun ds r h => absurd h (hr ds r)⟩

theorem stepFrame_of_user {a : Action} (hsize : s'.fill.size = s.fill.size)
    (hlost : s'.lost = s.lost)
    (htx : a ≠ .allocFrame → (∀ o, a ≠ .freeFrame o) →
      s'.freeFrames = s.freeFrames ∧ s'.out = s.out)
    (hu : s'.user = s.user) : StepFrame x cfg s a s' :=
  ⟨hsize, fun _ => hlost, htx, fun _ h => .inl (hu ▸ h), fun _ _ h => .inl (hu ▸ h)⟩

theorem step_frame {a : Action} (h : step x cfg s a = some s') : StepFrame x cfg s a s' := by
  cases a with
  | populate =>
      obtain ⟨-, rfl⟩ := step_populate h
      refine ⟨rfl, fun _ => rfl, fun _ _ => ⟨rfl, rfl⟩, fun r hr => .inr ⟨rfl, ?_⟩, nofun⟩
      cases hr
      rfl
  | populateSubmit =>
      obtain ⟨_, -, rfl⟩ := step_populateSubmit h
      exact stepFrame_of_idle rfl (fun _ => rfl) ⟨rfl, rfl⟩ nofun nofun
  | rxBurst nb rcvd =>
      obtain ⟨-, -, -, rfl⟩ := step_rxBurst h
      exact stepFrame_of_idle rfl (fun _ => rfl) ⟨rfl, rfl⟩ nofun nofun
  | rxBurstRelease =>
      obtain ⟨_, -, rfl⟩ := step_rxBurstRelease h
      exact stepFrame_of_idle rfl (fun _ => rfl) ⟨rfl, rfl⟩ nofun nofun
  | rxRelease descs rest =>
      obtain ⟨-, -, hcase⟩ := step_rxRelease h
      rcases hcase with ⟨-, rfl⟩ | ⟨-, rfl⟩
      · exact stepFrame_of_user rfl rfl (fun _ _ => ⟨rfl, rfl⟩) rfl
      · refine ⟨rfl, fun _ => rfl, fun _ _ => ⟨rfl, rfl⟩, nofun, fun ds r hr => .inr ?_⟩
        cases hr
        exact ⟨rest, rfl, rfl⟩
  | rxReleaseSubmit =>
      obtain ⟨_, _, -, rfl⟩ := step_rxReleaseSubmit h
      exact stepFrame_of_idle rfl (fun ha => absurd rfl ha) ⟨rfl, rfl⟩ nofun nofun
  | allocFrame =>
      rcases step_allocFrame h with ⟨-, rfl⟩ | ⟨_, _, -, rfl⟩
      · exact stepFrame_of_user rfl rfl (fun ha => absurd rfl ha) rfl
      · exact stepFrame_of_user rfl rfl (fun ha => absurd rfl ha) rfl
  | freeFrame offset =>
      obtain ⟨-, rfl⟩ := step_freeFrame h
      exact stepFrame_of_user rfl rfl (fun _ ha => absurd rfl (ha offset)) rfl
  | kernelTake =>
      obtain ⟨_, _, -, rfl⟩ := step_kernelTake h
      exact stepFrame_of_user rfl rfl (fun _ _ => ⟨rfl, rfl⟩) rfl
  | kernelPublish k =>
      obtain ⟨-, rfl⟩ := step_kernelPublish h
      exact stepFrame_of_user rfl rfl (fun _ _ => ⟨rfl, rfl⟩) rfl
  | kernelPost k d =>
      obtain ⟨_, -, rfl⟩ := step_kernelPost h
      exact stepFrame_of_user rfl rfl (fun _ _ => ⟨rfl, rfl⟩) rfl

theorem step_lost_le {a : Action} (h : step x cfg s a = some s') (i : Nat) :
    cfg.countDescs i s.lost ≤ cfg.countDescs i s'.lost := by
  by_cases ha : a = .rxReleaseSubmit
  · subst ha
    obtain ⟨descs, reserved, -, rfl⟩ := step_rxReleaseSubmit h
    rw [countDescs_append]
    omega
  · exact Nat.le_of_eq (congrArg _ ((step_frame h).lost ha).symm)

/-- No frame's count rises. -/
theorem step_occ_le {a : Action} (h : step x cfg s a = some s')
    (ha : a ≠ .populateSubmit) (i : Nat) : s'.occ cfg i ≤ s.occ cfg i := by
  have hsum := step_conserves h ha i
  have hlost : cfg.countDescs i s.lost ≤ cfg.countDescs i s'.lost := step_lost_le h i
  omega

theorem AtMostOnce.step {a : Action} (hi : AtMostOnce cfg s) (h : step x cfg s a = some s')
    (ha : a ≠ .populateSubmit) : AtMostOnce cfg s' :=
  fun i => Nat.le_trans (step_occ_le h ha i) (hi i)

/-- The submit of `populate_fill_ring` adds the frames it wrote. -/
theorem populateSubmit_occ (h : step x cfg s .populateSubmit = some s') :
    ∃ reserved, s.user = .populating reserved ∧
      ∀ i, s'.occ cfg i = s.occ cfg i + cfg.count i (cfg.entries reserved) := by
  obtain ⟨reserved, hu, rfl⟩ := step_populateSubmit h
  refine ⟨reserved, hu, fun i => ?_⟩
  simp only [State.occ, hu, User.inHand, count_append]
  omega

/-! ## The frames that are pre-loaded -/

theorem reserve_le (x : Libxdp) (r : FillRing) (n : Nat) : x.reserve r n ≤ n := by
  rcases x.all_or_nothing r n with h | h <;> omega

/-- The offsets of the first `n` frames are exact: none of the products
wraps, and frames have a size. -/
def UmemConfig.OffsetsFit (cfg : UmemConfig) (n : Nat) : Prop :=
  0 < cfg.frameSize.toNat ∧ ∀ i, i < n → i * cfg.frameSize.toNat < 2 ^ 64

instance (cfg : UmemConfig) (n : Nat) : Decidable (cfg.OffsetsFit n) :=
  inferInstanceAs (Decidable (_ ∧ ∀ i, i < n → i * cfg.frameSize.toNat < 2 ^ 64))

theorem UmemConfig.OffsetsFit.mono {m n : Nat} (h : cfg.OffsetsFit n) (hm : m ≤ n) :
    cfg.OffsetsFit m :=
  ⟨h.1, fun i hi => h.2 i (Nat.lt_of_lt_of_le hi hm)⟩

/-- It is enough that the end of the last frame fits. -/
theorem offsetsFit_of_product {n : Nat} (hpos : 0 < cfg.frameSize.toNat)
    (hfits : cfg.frameSize.toNat * n < 2 ^ 64) : cfg.OffsetsFit n := by
  refine ⟨hpos, fun k hk => ?_⟩
  rw [Nat.mul_comm]
  exact Nat.lt_of_le_of_lt (Nat.mul_le_mul_left _ (Nat.le_of_lt hk)) hfits

theorem frameOffset_toNat {n i : Nat} (h : cfg.OffsetsFit n) (hi : i < n) :
    (cfg.frameOffset (UInt64.ofNat i)).toNat = i * cfg.frameSize.toNat := by
  obtain ⟨hpos, hfit⟩ := h
  have hprod : i * cfg.frameSize.toNat < 2 ^ 64 := hfit i hi
  have hlt : i < 2 ^ 64 := Nat.lt_of_le_of_lt (Nat.le_mul_of_pos_right i hpos) hprod
  rw [UmemConfig.frameOffset, UInt64.toNat_mul, UInt64.toNat_ofNat', Nat.mod_eq_of_lt hlt,
    Nat.mod_eq_of_lt hprod]

theorem frameOf_frameOffset {n i : Nat} (h : cfg.OffsetsFit n) (hi : i < n) :
    cfg.frameOf (cfg.frameOffset (UInt64.ofNat i)) = i := by
  rw [UmemConfig.frameOf, frameOffset_toNat h hi]
  exact Nat.mul_div_cancel i h.1

theorem count_entries {n : Nat} (h : cfg.OffsetsFit n) (i : Nat) :
    cfg.count i (cfg.entries n) = if i < n then 1 else 0 := by
  induction n with
  | zero => rfl
  | succ n ih =>
      rw [UmemConfig.entries, List.range_succ, List.map_append, count_append, ← UmemConfig.entries,
        ih (h.mono (Nat.le_succ n))]
      simp only [List.map_cons, List.map_nil, count_cons, count_nil,
        frameOf_frameOffset h (Nat.lt_succ_self n)]
      by_cases hi : i < n
      · rw [if_pos hi, if_neg (by omega), if_pos (by omega)]
      · by_cases hn : n = i
        · rw [if_neg hi, if_pos hn, if_pos (by omega)]
        · rw [if_neg hi, if_neg hn, if_neg (by omega)]

theorem min_le_frameCount (cfg : UmemConfig) :
    min cfg.fillSize cfg.frameCount ≤ cfg.frameCount := by
  show (if cfg.fillSize ≤ cfg.frameCount then cfg.fillSize else cfg.frameCount)
    ≤ cfg.frameCount
  by_cases h : cfg.fillSize ≤ cfg.frameCount
  · rw [if_pos h]
    exact h
  · rw [if_neg h]
    exact UInt64.le_refl _

theorem preload_le (cfg : UmemConfig) : cfg.preload ≤ cfg.frameCount.toNat := by
  rw [UmemConfig.preload, UInt64.toNat_toUInt32]
  exact Nat.le_trans (Nat.mod_le _ _) (UInt64.le_iff_toNat_le.mp (min_le_frameCount cfg))

end UltrafastFeed.Umem
