import Mathlib.Logic.Equiv.Basic

/-!
# Table — entries with one owner each

A table of open files, handles, slots. `Owned holds files` says that the
owners hold the entries of the table: what an owner holds is in the
table, no two hold the same entry, and nothing in the table is without an
owner. An entry that is opened for one owner and closed by it keeps this,
whatever the others do, and so does one that changes its owner.
-/

namespace Lib.Table

open Function

variable {κ δ φ : Type}

structure Owned (holds : κ → Option (δ × φ)) (files : δ → Option φ) : Prop where
  present : ∀ x d f, holds x = some (d, f) → files d = some f
  distinct : ∀ x y d f g, holds x = some (d, f) → holds y = some (d, g) → x = y
  owner : ∀ d f, files d = some f → ∃ x, holds x = some (d, f)

variable {holds : κ → Option (δ × φ)} {files : δ → Option φ} {x : κ} {d : δ} {f : φ}

theorem owned_empty : Owned (fun _ : κ => (none : Option (δ × φ))) fun _ => none where
  present := by simp
  distinct := by simp
  owner := by simp

/-- The owners under other names. -/
theorem Owned.permute (h : Owned holds files) (σ : Equiv.Perm κ) : Owned (holds ∘ σ) files where
  present y := h.present (σ y)
  distinct y z d f g hy hz := σ.injective (h.distinct (σ y) (σ z) d f g hy hz)
  owner d f hd := by
    obtain ⟨y, hy⟩ := h.owner d f hd
    exact ⟨σ.symm y, by rw [comp_apply, σ.apply_symm_apply, hy]⟩

variable [DecidableEq κ]

/-- What `y` holds, if anything, goes to `x`, which holds nothing. -/
theorem Owned.moves (h : Owned holds files) (hx : holds x = none) (y : κ) :
    Owned (update (update holds x (holds y)) y none) files := by
  have hswap : update (update holds x (holds y)) y none = holds ∘ Equiv.swap x y := by
    funext z
    rw [comp_apply]
    by_cases hzy : z = y
    · rw [hzy, update_self, Equiv.swap_apply_right, hx]
    · rw [update_of_ne hzy]
      by_cases hzx : z = x
      · rw [hzx, update_self, Equiv.swap_apply_left]
      · rw [update_of_ne hzx, Equiv.swap_apply_of_ne_of_ne hzx hzy]
  rw [hswap]
  exact h.permute _

variable [DecidableEq δ]

/-- `x` opens an entry. -/
theorem Owned.opens (h : Owned holds files) (hx : holds x = none) (hd : files d = none) (f : φ) :
    Owned (update holds x (some (d, f))) (update files d (some f)) := by
  have hold : ∀ y g, holds y ≠ some (d, g) := by
    intro y g hy
    rw [h.present y d g hy] at hd
    cases hd
  refine ⟨fun y e g hy => ?_, fun y z e g g' hy hz => ?_, fun e g he => ?_⟩
  · by_cases hyx : y = x
    · rw [hyx, update_self] at hy
      cases hy
      rw [update_self]
    · rw [update_of_ne hyx] at hy
      rw [update_of_ne, h.present y e g hy]
      rintro rfl
      exact hold y g hy
  · by_cases hyx : y = x
    · by_cases hzx : z = x
      · rw [hyx, hzx]
      · rw [hyx, update_self] at hy
        rw [update_of_ne hzx] at hz
        cases hy
        exact absurd hz (hold z g')
    · rw [update_of_ne hyx] at hy
      by_cases hzx : z = x
      · rw [hzx, update_self] at hz
        cases hz
        exact absurd hy (hold y g)
      · rw [update_of_ne hzx] at hz
        exact h.distinct y z e g g' hy hz
  · by_cases hed : e = d
    · rw [hed, update_self] at he
      cases he
      exact ⟨x, by rw [update_self, hed]⟩
    · rw [update_of_ne hed] at he
      obtain ⟨y, hy⟩ := h.owner e g he
      refine ⟨y, ?_⟩
      rw [update_of_ne, hy]
      rintro rfl
      rw [hx] at hy
      cases hy

/-- `x` closes its entry. -/
theorem Owned.closes (h : Owned holds files) (hx : holds x = some (d, f)) :
    Owned (update holds x none) (update files d none) := by
  have hstays : ∀ y e g, update holds x none y = some (e, g) → y ≠ x ∧ holds y = some (e, g) := by
    intro y e g hy
    by_cases hyx : y = x
    · rw [hyx, update_self] at hy
      cases hy
    · rw [update_of_ne hyx] at hy
      exact ⟨hyx, hy⟩
  refine ⟨fun y e g hy => ?_, fun y z e g g' hy hz => ?_, fun e g he => ?_⟩
  · obtain ⟨hyx, hy⟩ := hstays y e g hy
    rw [update_of_ne, h.present y e g hy]
    rintro rfl
    exact hyx (h.distinct y x e g f hy hx)
  · exact h.distinct y z e g g' (hstays y e g hy).2 (hstays z e g' hz).2
  · by_cases hed : e = d
    · rw [hed, update_self] at he
      cases he
    · rw [update_of_ne hed] at he
      obtain ⟨y, hy⟩ := h.owner e g he
      refine ⟨y, ?_⟩
      rw [update_of_ne, hy]
      rintro rfl
      rw [hx] at hy
      cases hy
      exact hed rfl

end Lib.Table
