/-
**Buffers of bytes, and the numbers in them.**

A structure in memory or on a disk is a number of bytes, and its fields are ranges of them; a number
that takes several bytes is stored with the lowest byte first.  What a program does to such a buffer
is to copy a range of bytes into it, and a field that lies outside of that range keeps its value.

Main definitions:

* `Bytes n` — buffers of `n` bytes;
* `Bytes.get`, `Bytes.splice` — one byte, and copying a range;
* `Bytes.num`, `Bytes.setNum` — the number in a range of bytes;
* `Bytes.bit`, `Bytes.setBit`, `Bytes.clearBit` — the buffer as a bitmap.

Main results:

* `Bytes.num_setNum` — **a number that was stored is read back**;
* `Bytes.num_splice_of_disjoint` — copying leaves the numbers outside of the range alone;
* `Bytes.bit_setBit`, `Bytes.bit_clearBit` — **setting or clearing a bit changes that bit only**.
-/

import Mathlib.Algebra.Group.Nat.Defs
import Mathlib.Data.Nat.Notation
import Mathlib.Tactic.SplitIfs

set_option autoImplicit false

/-- A buffer of `n` bytes. -/
def Bytes (n : ℕ) : Type := Fin n → BitVec 8

namespace Bytes

variable {n : ℕ} {d d' : Bytes n} {i off len at₀ w v : ℕ} {src src' : ℕ → BitVec 8}

/-- All bytes are zero. -/
def zero : Bytes n := fun _ => 0

/-- Byte number `i`; beyond the end there is nothing. -/
def get (d : Bytes n) (i : ℕ) : BitVec 8 := if h : i < n then d ⟨i, h⟩ else 0

/-- Copy `len` bytes from `src` to the bytes from `off` on. -/
def splice (d : Bytes n) (off len : ℕ) (src : ℕ → BitVec 8) : Bytes n :=
  fun i => if off ≤ i.val ∧ i.val < off + len then src (i.val - off) else d i

@[ext] theorem ext (h : ∀ i < n, d.get i = d'.get i) : d = d' := by
  funext ⟨i, hi⟩
  have := h i hi
  rwa [get, get, dif_pos hi, dif_pos hi] at this

@[simp] theorem get_zero : (zero : Bytes n).get i = 0 := by simp [get, zero]

theorem get_of_le (h : n ≤ i) : d.get i = 0 := dif_neg (by omega)

theorem get_splice (h : i < n) : (d.splice off len src).get i =
    if off ≤ i ∧ i < off + len then src (i - off) else d.get i := by
  simp only [get, splice, dif_pos h]

theorem get_splice_of_mem (hi : off ≤ i) (hlt : i < off + len) (h : i < n) :
    (d.splice off len src).get i = src (i - off) := by
  rw [get_splice h, if_pos ⟨hi, hlt⟩]

theorem get_splice_of_not_mem (hi : i < off ∨ off + len ≤ i) :
    (d.splice off len src).get i = d.get i := by
  rcases Nat.lt_or_ge i n with h | h
  · rw [get_splice h, if_neg (by omega)]
  · rw [get_of_le h, get_of_le h]

/-! ### Numbers -/

/-- The number in the `w` bytes from `off` on. -/
def num (d : Bytes n) (off : ℕ) : ℕ → ℕ
  | 0 => 0
  | w + 1 => (d.get off).toNat + 256 * d.num (off + 1) w

/-- Byte number `k` of `v`. -/
def digit (v k : ℕ) : BitVec 8 := BitVec.ofNat 8 (v / 256 ^ k)

/-- Store `v` in the `w` bytes from `off` on. -/
def setNum (d : Bytes n) (off w v : ℕ) : Bytes n := d.splice off w (digit v)

theorem num_lt : d.num off w < 256 ^ w := by
  induction w generalizing off with
  | zero => exact Nat.one_pos
  | succ w ih =>
    have hbyte : (d.get off).toNat < 256 := (d.get off).isLt
    have hrest : d.num (off + 1) w < 256 ^ w := ih
    rw [num, Nat.pow_succ]
    omega

@[simp] theorem num_zero : (zero : Bytes n).num off w = 0 := by
  induction w generalizing off with
  | zero => rfl
  | succ w ih => simp [num, ih]

theorem num_congr (h : ∀ i, off ≤ i → i < off + w → d.get i = d'.get i) :
    d.num off w = d'.num off w := by
  induction w generalizing off with
  | zero => rfl
  | succ w ih =>
    rw [num, num, h off (by omega) (by omega), ih fun i h₁ h₂ => h i (by omega) (by omega)]

/-- **Copying leaves the numbers outside of the range alone.** -/
theorem num_splice_of_disjoint (h : at₀ + w ≤ off ∨ off + len ≤ at₀) :
    (d.splice off len src).num at₀ w = d.num at₀ w :=
  num_congr fun i h₁ h₂ => get_splice_of_not_mem (by omega)

theorem num_setNum_of_disjoint {w' : ℕ} (h : at₀ + w' ≤ off ∨ off + w ≤ at₀) :
    (d.setNum off w v).num at₀ w' = d.num at₀ w' := num_splice_of_disjoint h

/-- The number that consecutive digits spell. -/
theorem num_of_digits (h : ∀ k < w, d.get (off + k) = digit v k) : d.num off w = v % 256 ^ w := by
  induction w generalizing off v with
  | zero => simp [num, Nat.mod_one]
  | succ w ih =>
    have hfirst : (d.get off).toNat = v % 256 := by
      have := h 0 (by omega)
      rw [Nat.add_zero] at this
      rw [this, digit, Nat.pow_zero, Nat.div_one, BitVec.toNat_ofNat]
    have hrest : d.num (off + 1) w = v / 256 % 256 ^ w := by
      refine ih fun k hk => ?_
      have := h (k + 1) (by omega)
      rw [show off + 1 + k = off + (k + 1) by omega, this, digit, digit, Nat.pow_succ',
        Nat.div_div_eq_div_mul]
    rw [num, hfirst, hrest, Nat.pow_succ', Nat.mod_mul]

/-- **A number that was stored is read back.** -/
theorem num_setNum (h : off + w ≤ n) (hv : v < 256 ^ w) : (d.setNum off w v).num off w = v := by
  rw [num_of_digits (v := v) fun k hk => ?_, Nat.mod_eq_of_lt hv]
  rw [setNum, get_splice_of_mem (by omega) (by omega) (by omega), Nat.add_sub_cancel_left]

/-! ### Bitmaps -/

/-- `1 << (k % 8)`. -/
def mask (k : ℕ) : BitVec 8 := 1#8 <<< (k % 8)

/-- `d[k / 8] & mask`: is bit number `k` set? -/
def bit (d : Bytes n) (k : ℕ) : Bool := decide (d.get (k / 8) &&& mask k ≠ 0)

/-- `d[k / 8] |= mask`. -/
def setBit (d : Bytes n) (k : ℕ) : Bytes n := d.splice (k / 8) 1 fun _ => d.get (k / 8) ||| mask k

/-- `d[k / 8] &= ~mask`. -/
def clearBit (d : Bytes n) (k : ℕ) : Bytes n :=
  d.splice (k / 8) 1 fun _ => d.get (k / 8) &&& ~~~ mask k

theorem getLsbD_mask {j k : ℕ} : (mask k).getLsbD j = decide (k % 8 = j) := by
  have hlt : k % 8 < 8 := Nat.mod_lt _ (by decide)
  have hpow : (mask k).getLsbD j = (BitVec.twoPow 8 (k % 8)).getLsbD j := rfl
  rw [hpow, BitVec.getLsbD_twoPow, decide_eq_true hlt, Bool.true_and]

theorem bit_eq {k : ℕ} : d.bit k = (d.get (k / 8)).getLsbD (k % 8) := by
  have hand : d.get (k / 8) &&& mask k =
      if (d.get (k / 8)).getLsbD (k % 8) then BitVec.twoPow 8 (k % 8) else 0 :=
    BitVec.and_twoPow _ _
  have hpow : BitVec.twoPow 8 (k % 8) ≠ 0 := by
    intro hzero
    have hself := congrArg (fun x => BitVec.getLsbD x (k % 8)) hzero
    simp [Nat.mod_lt] at hself
  rw [bit, hand]
  split_ifs with h
  · rw [h, decide_eq_true hpow]
  · rw [decide_eq_false (fun hne => hne rfl), Bool.eq_false_iff.2 h]

@[simp] theorem bit_zero {k : ℕ} : (zero : Bytes n).bit k = false := by simp [bit_eq]

/-- A bit after one byte was replaced. -/
theorem bit_splice {j k : ℕ} (hk : k / 8 < n) {x : BitVec 8} :
    (d.splice (k / 8) 1 fun _ => x).bit j =
      if j / 8 = k / 8 then x.getLsbD (j % 8) else d.bit j := by
  rw [bit_eq]
  split_ifs with h
  · rw [get_splice_of_mem (by omega) (by omega) (by omega)]
  · rw [get_splice_of_not_mem (by omega), bit_eq]

/-- **Setting a bit** changes that bit only. -/
theorem bit_setBit {j k : ℕ} (hk : k / 8 < n) :
    (d.setBit k).bit j = (decide (j = k) || d.bit j) := by
  rw [setBit, bit_splice hk]
  split_ifs with h
  · have hiff : k % 8 = j % 8 ↔ j = k := by omega
    rw [BitVec.getLsbD_or, getLsbD_mask, decide_eq_decide.2 hiff, bit_eq, h, Bool.or_comm]
  · have hne : j ≠ k := fun hjk => h (by rw [hjk])
    rw [decide_eq_false hne, Bool.false_or]

/-- **Clearing a bit** changes that bit only. -/
theorem bit_clearBit {j k : ℕ} (hk : k / 8 < n) :
    (d.clearBit k).bit j = (decide (j ≠ k) && d.bit j) := by
  rw [clearBit, bit_splice hk]
  split_ifs with h
  · have hiff : ¬ k % 8 = j % 8 ↔ j ≠ k := by omega
    have hlt : j % 8 < 8 := Nat.mod_lt _ (by decide)
    rw [BitVec.getLsbD_and, BitVec.getLsbD_not, getLsbD_mask, decide_eq_true hlt, Bool.true_and,
      ← decide_not, decide_eq_decide.2 hiff, bit_eq, h, Bool.and_comm]
  · have hne : j ≠ k := fun hjk => h (by rw [hjk])
    rw [decide_eq_true hne, Bool.true_and]

end Bytes
