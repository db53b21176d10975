/-
**Finite maps in slots.**

A table of numbered slots, each of which is empty or holds a key with a value, represents a finite
map if no key is in two slots.  Slots are reused, and the table may grow by a slot at its end.

* `SlotMap slot n M` — the first `n` slots represent the map `M`;
* `SlotMap.store`, `SlotMap.clear` — **storing a new key in an empty slot adds it to the map, and
  emptying a slot removes its key**.
-/

import Mathlib.Data.Nat.Notation
import Mathlib.Logic.Function.Basic

set_option autoImplicit false

/-- The first `n` slots hold the entries of the map `M`, each in one slot. -/
structure SlotMap {κ ν : Type} (slot : ℕ → Option (κ × ν)) (n : ℕ) (M : κ → Option ν) : Prop where
  unique : ∀ e e' k v v', e < n → e' < n → slot e = some (k, v) → slot e' = some (k, v') → e = e'
  agrees : ∀ k v, M k = some v ↔ ∃ e < n, slot e = some (k, v)

namespace SlotMap

open Function

variable {κ ν : Type} {slot slot' : ℕ → Option (κ × ν)} {n e : ℕ} {M : κ → Option ν} {k : κ} {v : ν}

/-- No slots represent the empty map. -/
theorem nil : SlotMap slot 0 fun _ : κ => (none : Option ν) where
  unique := fun _ _ _ _ _ he => absurd he (Nat.not_lt_zero _)
  agrees := by
    intro k v
    constructor
    · intro h
      cases h
    · rintro ⟨e, he, -⟩
      exact absurd he (Nat.not_lt_zero _)

/-- A key that is in no slot is not in the map. -/
theorem eq_none (h : SlotMap slot n M) (hk : ∀ e < n, ∀ v, slot e ≠ some (k, v)) : M k = none := by
  cases hM : M k with
  | none => rfl
  | some v =>
    obtain ⟨e, he, hs⟩ := (h.agrees k v).1 hM
    exact absurd hs (hk e he v)

variable [DecidableEq κ]

/-- **A new key is stored** in an empty slot, or in a new one at the end. -/
theorem store (h : SlotMap slot n M) (hk : M k = none) (he : e ≤ n) (hempty : e < n → slot e = none)
    (hself : slot' e = some (k, v)) (hother : ∀ e' ≠ e, e' < n → slot' e' = slot e') :
    SlotMap slot' (max n (e + 1)) (update M k (some v)) where
  unique := by
    -- the slot that the key is stored in is the only one that holds it
    have hnew : ∀ e' v', e' < max n (e + 1) → slot' e' = some (k, v') → e' = e := by
      intro e' v' he' hs
      by_contra hne
      rw [hother e' hne (by omega)] at hs
      have hM := (h.agrees k v').2 ⟨e', by omega, hs⟩
      rw [hk] at hM
      cases hM
    intro e₁ e₂ k' v₁ v₂ h₁ h₂ hs₁ hs₂
    rcases eq_or_ne e₁ e with rfl | hne₁
    · rw [hself] at hs₁
      cases hs₁
      exact (hnew e₂ v₂ h₂ hs₂).symm
    · rcases eq_or_ne e₂ e with rfl | hne₂
      · rw [hself] at hs₂
        cases hs₂
        exact hnew e₁ v₁ h₁ hs₁
      · rw [hother e₁ hne₁ (by omega)] at hs₁
        rw [hother e₂ hne₂ (by omega)] at hs₂
        exact h.unique e₁ e₂ k' v₁ v₂ (by omega) (by omega) hs₁ hs₂
  agrees := by
    intro k' v'
    rcases eq_or_ne k' k with rfl | hne
    · rw [update_self]
      constructor
      · intro heq
        cases heq
        exact ⟨e, by omega, hself⟩
      · rintro ⟨e', he', hs⟩
        rcases eq_or_ne e' e with rfl | hne
        · rw [hself] at hs
          cases hs
          rfl
        · rw [hother e' hne (by omega)] at hs
          have hM := (h.agrees k' v').2 ⟨e', by omega, hs⟩
          rw [hk] at hM
          cases hM
    · rw [update_of_ne hne, h.agrees]
      constructor
      · rintro ⟨e', he', hs⟩
        have hne' : e' ≠ e := by
          rintro rfl
          rw [hempty he'] at hs
          cases hs
        exact ⟨e', by omega, by rw [hother e' hne' he', hs]⟩
      · rintro ⟨e', he', hs⟩
        have hne' : e' ≠ e := by
          rintro rfl
          rw [hself] at hs
          cases hs
          exact hne rfl
        rw [hother e' hne' (by omega)] at hs
        exact ⟨e', by omega, hs⟩

/-- **A key is removed** by emptying its slot. -/
theorem clear (h : SlotMap slot n M) (he : e < n) (hold : slot e = some (k, v))
    (hself : slot' e = none) (hother : ∀ e' ≠ e, e' < n → slot' e' = slot e') :
    SlotMap slot' n (update M k none) where
  unique := by
    have hne : ∀ e' k' v', slot' e' = some (k', v') → e' ≠ e := by
      rintro e' k' v' hs rfl
      rw [hself] at hs
      cases hs
    intro e₁ e₂ k' v₁ v₂ h₁ h₂ hs₁ hs₂
    have hne₁ := hne e₁ k' v₁ hs₁
    have hne₂ := hne e₂ k' v₂ hs₂
    rw [hother e₁ hne₁ h₁] at hs₁
    rw [hother e₂ hne₂ h₂] at hs₂
    exact h.unique e₁ e₂ k' v₁ v₂ h₁ h₂ hs₁ hs₂
  agrees := by
    intro k' v'
    rcases eq_or_ne k' k with rfl | hne
    · rw [update_self]
      constructor
      · intro heq
        cases heq
      · rintro ⟨e', he', hs⟩
        rcases eq_or_ne e' e with rfl | hne
        · rw [hself] at hs
          cases hs
        · rw [hother e' hne he'] at hs
          exact absurd (h.unique e' e k' v' v he' he hs hold) hne
    · rw [update_of_ne hne, h.agrees]
      constructor
      · rintro ⟨e', he', hs⟩
        have hne' : e' ≠ e := by
          rintro rfl
          rw [hold] at hs
          cases hs
          exact hne rfl
        exact ⟨e', he', by rw [hother e' hne' he', hs]⟩
      · rintro ⟨e', he', hs⟩
        have hne' : e' ≠ e := by
          rintro rfl
          rw [hself] at hs
          cases hs
        rw [hother e' hne' he'] at hs
        exact ⟨e', he', hs⟩

end SlotMap
