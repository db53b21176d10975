/-
**Exclusive or as a group, and parity.**

A parity block is the exclusive or of the blocks it protects, and everything one does with it —
updating it in place, rebuilding a lost block from the others — is arithmetic in a commutative
group in which every element is its own inverse.  This module provides that group and the few
facts about parity sums that such arithmetic consists of.

* `Bits w` — bit vectors of width `w` with exclusive or as addition.  It is a separate type
  because addition of `BitVec w` is already taken by the arithmetic modulo `2 ^ w`;
* `Parity.eq_sum_erase_of_sum_eq_zero` — **reconstruction**: if a family sums to zero, each member
  is the sum of the others;
* `Parity.sum_update_pair` — **the parity update**: replacing one member by `x` and adding the old
  value and `x` to another member does not change the sum.

The statements about parity are over an arbitrary commutative group of exponent two, given as a
module over `ZMod 2`.
-/

import Mathlib.Algebra.BigOperators.Group.Finset.Piecewise
import Mathlib.Algebra.Field.ZMod
import Mathlib.Algebra.Module.ZMod
import Mathlib.Tactic.Abel

set_option autoImplicit false

/-! ### Bit vectors under exclusive or -/

/-- Bit vectors of width `w`, to be added by exclusive or. -/
def Bits (w : ℕ) : Type := BitVec w
deriving DecidableEq

namespace Bits

variable {w : ℕ}

instance : XorOp (Bits w) := inferInstanceAs (XorOp (BitVec w))

instance : Zero (Bits w) := ⟨(0#w : BitVec w)⟩

instance : Add (Bits w) := ⟨fun x y => x ^^^ y⟩

instance : Neg (Bits w) := ⟨fun x => x⟩

/-- The bit vector that holds the number `n`, truncated to the width. -/
def ofNat (w n : ℕ) : Bits w := BitVec.ofNat w n

/-- The number that a bit vector holds. -/
def toNat (x : Bits w) : ℕ := BitVec.toNat x

theorem xor_eq_add (x y : Bits w) : x ^^^ y = x + y := rfl

theorem add_self (x : Bits w) : x + x = 0 := BitVec.xor_self

instance : AddCommGroup (Bits w) where
  add_assoc x y z := BitVec.xor_assoc (w := w) x y z
  zero_add _ := BitVec.zero_xor
  add_zero _ := BitVec.xor_zero
  add_comm x y := BitVec.xor_comm (w := w) x y
  neg_add_cancel x := add_self x
  nsmul := nsmulRec
  zsmul := zsmulRec

instance : Module (ZMod 2) (Bits w) :=
  AddCommGroup.zmodModule fun x => by rw [two_nsmul, add_self]

end Bits

/-! ### Parity sums -/

namespace Parity

variable {ι G : Type*} [DecidableEq ι] [AddCommGroup G] [Module (ZMod 2) G]

/-- Moving a summand across an equation. -/
theorem add_eq_zero_iff (x y : G) : x + y = 0 ↔ x = y := by
  rw [← ZModModule.sub_eq_add, sub_eq_zero]

/-- **Reconstruction.**  In a family that sums to zero each member is the sum of the others. -/
theorem eq_sum_erase_of_sum_eq_zero {s : Finset ι} {f : ι → G} (h : ∑ i ∈ s, f i = 0) {a : ι}
    (ha : a ∈ s) : f a = ∑ i ∈ s.erase a, f i := by
  rw [← Finset.add_sum_erase s f ha] at h
  exact (add_eq_zero_iff _ _).1 h

/-- **The parity update.**  Replacing the member at `d` by `x`, and adding the old and the new
value to the member at `p`, keeps the sum. -/
theorem sum_update_pair {s : Finset ι} (f : ι → G) {p d : ι} (hp : p ∈ s) (hd : d ∈ s) (hpd : p ≠ d)
    (x : G) :
    ∑ i ∈ s, Function.update (Function.update f d x) p (f p + f d + x) i = ∑ i ∈ s, f i := by
  have hd' : d ∈ s \ {p} := by simp [hd, hpd.symm]
  have hsplit : ∑ i ∈ s, f i = f p + (f d + ∑ i ∈ (s \ {p}) \ {d}, f i) := by
    rw [Finset.sum_eq_add_sum_sdiff_singleton_of_mem hp f,
      Finset.sum_eq_add_sum_sdiff_singleton_of_mem hd' f]
  rw [Finset.sum_update_of_mem hp, Finset.sum_update_of_mem hd', hsplit]
  calc f p + f d + x + (x + ∑ i ∈ (s \ {p}) \ {d}, f i)
      = f p + f d + (x + x) + ∑ i ∈ (s \ {p}) \ {d}, f i := by abel
    _ = f p + (f d + ∑ i ∈ (s \ {p}) \ {d}, f i) := by
        rw [ZModModule.add_self, add_zero, add_assoc]

end Parity
