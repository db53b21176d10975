/-
**Blocks with owners.**

An allocator hands out numbered blocks, and keeps a record of those in use.  What refers to a block
owns it: a reference is of some type `ρ`, and `f r` is the number of the block that `r` refers to,
or `0` if it refers to none.  Blocks below `lo` are reserved, and blocks from `hi` on do not exist.

* `Owned f used lo hi` — no two references are to the same block, and every block that is referred
  to is in use;
* `Owned.of_free` — **a block that is not in use has no owner**;
* `Owned.attach`, `Owned.release`, `Owned.drop` — a reference to a block in use is made, a block is
  freed with the reference to it, and references are forgotten.
-/

import Mathlib.Data.Nat.Notation
import Mathlib.Logic.Function.Basic

set_option autoImplicit false

/-- Every block that is referred to is in use, and has one owner. -/
structure Owned {ρ : Type} (f : ρ → ℕ) (used : ℕ → Bool) (lo hi : ℕ) : Prop where
  pos : 0 < lo
  le : lo ≤ hi
  unique : ∀ r r', f r ≠ 0 → f r = f r' → r = r'
  inside : ∀ r, f r ≠ 0 → lo ≤ f r ∧ f r < hi
  in_use : ∀ r, f r ≠ 0 → used (f r) = true
  reserved : ∀ b < lo, used b = true

namespace Owned

open Function

variable {ρ : Type} {f f' : ρ → ℕ} {used used' : ℕ → Bool} {lo hi b : ℕ} {r : ρ}

/-- Nothing refers to a block. -/
theorem of_none (hf : ∀ r, f r = 0) (hpos : 0 < lo) (hle : lo ≤ hi)
    (hreserved : ∀ b < lo, used b = true) :
    Owned f used lo hi where
  pos := hpos
  le := hle
  unique := fun r _ hr => absurd (hf r) hr
  inside := fun r hr => absurd (hf r) hr
  in_use := fun r hr => absurd (hf r) hr
  reserved := hreserved

/-- **A block that is not in use has no owner.** -/
theorem of_free (h : Owned f used lo hi) (hb : used b = false) : lo ≤ b ∧ ∀ r, f r ≠ b := by
  have hlo : lo ≤ b := by
    by_contra hlt
    have hused := h.reserved b (by omega)
    simp [hb] at hused
  refine ⟨hlo, fun r hr => ?_⟩
  have hpos := h.pos
  have hused := h.in_use r (by omega)
  simp [hr, hb] at hused

/-- References may be forgotten, and blocks may come into use. -/
theorem drop (h : Owned f used lo hi) (hf : ∀ r, f' r = f r ∨ f' r = 0)
    (hu : ∀ b < hi, used b = true → used' b = true) : Owned f' used' lo hi where
  pos := h.pos
  le := h.le
  unique := by
    intro r r' hr heq
    rcases hf r with hr₁ | hr₁
    · rcases hf r' with hr₂ | hr₂
      · rw [hr₁] at hr heq
        rw [hr₂] at heq
        exact h.unique r r' hr heq
      · exact absurd (heq.trans hr₂) hr
    · exact absurd hr₁ hr
  inside := by
    intro r hr
    rcases hf r with hr₁ | hr₁
    · rw [hr₁] at hr ⊢
      exact h.inside r hr
    · exact absurd hr₁ hr
  in_use := by
    intro r hr
    rcases hf r with hr₁ | hr₁
    · rw [hr₁] at hr ⊢
      exact hu _ (h.inside r hr).2 (h.in_use r hr)
    · exact absurd hr₁ hr
  reserved := fun b hb => hu b (Nat.lt_of_lt_of_le hb h.le) (h.reserved b hb)

/-- Blocks may come into use. -/
theorem mono (h : Owned f used lo hi) (hu : ∀ b < hi, used b = true → used' b = true) :
    Owned f used' lo hi := h.drop (fun _ => .inl rfl) hu

variable [DecidableEq ρ]

/-- A reference to a block that is in use and has no owner. -/
theorem attach (h : Owned f used lo hi) (hb : ∀ r, f r ≠ b) (hlo : lo ≤ b) (hhi : b < hi)
    (hused : used b = true) : Owned (update f r b) used lo hi where
  pos := h.pos
  le := h.le
  unique := by
    intro r₁ r₂ hne heq
    rcases eq_or_ne r₁ r with rfl | h₁
    · rcases eq_or_ne r₂ r₁ with rfl | h₂
      · rfl
      · rw [update_self, update_of_ne h₂] at heq
        exact absurd heq.symm (hb r₂)
    · rcases eq_or_ne r₂ r with rfl | h₂
      · rw [update_self, update_of_ne h₁] at heq
        exact absurd heq (hb r₁)
      · rw [update_of_ne h₁] at hne heq
        rw [update_of_ne h₂] at heq
        exact h.unique r₁ r₂ hne heq
  inside := by
    intro r₁ hne
    rcases eq_or_ne r₁ r with rfl | h₁
    · rw [update_self]
      exact ⟨hlo, hhi⟩
    · rw [update_of_ne h₁] at hne ⊢
      exact h.inside r₁ hne
  in_use := by
    intro r₁ hne
    rcases eq_or_ne r₁ r with rfl | h₁
    · rwa [update_self]
    · rw [update_of_ne h₁] at hne ⊢
      exact h.in_use r₁ hne
  reserved := h.reserved

/-- A block is freed and the reference to it forgotten. -/
theorem release (h : Owned f used lo hi) (hr : f r ≠ 0)
    (hu : ∀ b < hi, b ≠ f r → used b = true → used' b = true) :
    Owned (update f r 0) used' lo hi where
  pos := h.pos
  le := h.le
  unique := by
    intro r₁ r₂ hne heq
    rcases eq_or_ne r₁ r with rfl | h₁
    · exact absurd (update_self ..) hne
    · rcases eq_or_ne r₂ r with rfl | h₂
      · rw [update_self] at heq
        exact absurd heq hne
      · rw [update_of_ne h₁] at hne heq
        rw [update_of_ne h₂] at heq
        exact h.unique r₁ r₂ hne heq
  inside := by
    intro r₁ hne
    rcases eq_or_ne r₁ r with rfl | h₁
    · exact absurd (update_self ..) hne
    · rw [update_of_ne h₁] at hne ⊢
      exact h.inside r₁ hne
  in_use := by
    intro r₁ hne
    rcases eq_or_ne r₁ r with rfl | h₁
    · exact absurd (update_self ..) hne
    · rw [update_of_ne h₁] at hne ⊢
      refine hu _ (h.inside r₁ hne).2 (fun heq => h₁ ?_) (h.in_use r₁ hne)
      exact h.unique r₁ r hne heq
  reserved := by
    intro b hb
    have hlo := (h.inside r hr).1
    exact hu b (Nat.lt_of_lt_of_le hb h.le) (by omega) (h.reserved b hb)

end Owned
