/-
**Where a logical block lives.**

Each access function begins by turning a logical block number into a place: a disk (or, for the
mirrored types, a column of two disks) and a physical block.  This module shows that for every
number of disks the places of the logical blocks `0, 1, 2, …` are, one to one, exactly the places
meant for data, and that reader and writer agree on them.

For `RAID5` the parity disk rotates.  In stripe `s` it is `n - (s - 1) % n`, and the data disks are
counted from the disk after it, wrapping around; so a place is a data place exactly when its disk
is not the parity disk of its stripe.

* `numOfDisksOf` — the value of `num_of_disks` that `init_raid` stores;
* `readPlace`, `writePlace` — the place of a block according to the reader and to the writer;
* `positions` — the places meant for data;
* `parityOf`, `dataDiskOf`, `stripeOf` — the parity disk of a stripe, the disk and the stripe of a
  block, for `RAID4` and `RAID5` at once;
* `readPlace_bijOn` — **the placement is a bijection**;
* `existsUnique_parity` — the parity disk visits every disk once in `n` consecutive stripes.
-/

import RaidSystem.RaidRw
import Mathlib.Data.Set.Function

set_option autoImplicit false

namespace RaidSystem

/-! ### Places -/

/-- The value of `num_of_disks` after `init_raid`, with `n` disks. -/
def numOfDisksOf (t : RaidType) (n : ℕ) : ℕ :=
  match t with
  | .RAID1 | .RAID0_1 => n / 2
  | .RAID4 => n - 1
  | _ => n

/-- The place that the read function of type `t` computes for the logical block `b`. -/
def readPlace (t : RaidType) (n b : ℕ) : ℕ × ℕ :=
  match t with
  | .RAID0 => readRaid0Addr (numOfDisksOf t n) b
  | .RAID1 => readRaid1Addr (numOfDisksOf t n) b
  | .RAID0_1 => readRaid01Addr (numOfDisksOf t n) b
  | .RAID4 => readRaid4Addr (numOfDisksOf t n) b
  | .RAID5 => ((readRaid5Addr (numOfDisksOf t n) b).1, (readRaid5Addr (numOfDisksOf t n) b).2.2)
  | .other _ => (0, 0)

/-- The place that the write function of type `t` computes for the logical block `b`. -/
def writePlace (t : RaidType) (n b : ℕ) : ℕ × ℕ :=
  match t with
  | .RAID0 => writeRaid0Addr (numOfDisksOf t n) b
  | .RAID1 => writeRaid1Addr (numOfDisksOf t n) b
  | .RAID0_1 => writeRaid01Addr (numOfDisksOf t n) b
  | .RAID4 => writeRaid4Addr (numOfDisksOf t n) b
  | .RAID5 => ((writeRaid5Addr (numOfDisksOf t n) b).1, (writeRaid5Addr (numOfDisksOf t n) b).2.2)
  | .other _ => (0, 0)

/-- The parity disk of a stripe of a parity array with `n` disks. -/
def parityOf (t : RaidType) (n stripe : ℕ) : ℕ :=
  if t = .RAID5 then n - (stripe - 1) % n else n

/-- The stripe of a block of a parity array with `n` disks. -/
def stripeOf (n b : ℕ) : ℕ := b / (n - 1) + 1

/-- The disk of a block of a parity array with `n` disks. -/
def dataDiskOf (t : RaidType) (n b : ℕ) : ℕ :=
  if t = .RAID5 then (parityOf .RAID5 n (stripeOf n b) + b % (n - 1)) % n + 1 else b % (n - 1) + 1

/-- The places meant for data: `(disk, block)`, or `(column, block)` for the mirrored types. -/
def positions (t : RaidType) (n : ℕ) : Set (ℕ × ℕ) :=
  match t with
  | .RAID0 => {p | 1 ≤ p.1 ∧ p.1 ≤ n ∧ 1 ≤ p.2}
  | .RAID1 | .RAID0_1 => {p | p.1 < n / 2 ∧ 1 ≤ p.2}
  | .RAID4 => {p | 1 ≤ p.1 ∧ p.1 ≤ n - 1 ∧ 1 ≤ p.2}
  | .RAID5 => {p | 1 ≤ p.1 ∧ p.1 ≤ n ∧ 1 ≤ p.2 ∧ p.1 ≠ parityOf .RAID5 n p.2}
  | .other _ => ∅

/-- The numbers of disks with which a type can work: with fewer, its access functions divide by
zero. -/
def Supports (t : RaidType) (n : ℕ) : Prop :=
  match t with
  | .RAID0 => 1 ≤ n
  | .other _ => False
  | _ => 2 ≤ n

instance (t : RaidType) (n : ℕ) : Decidable (Supports t n) :=
  match t with
  | .RAID0 => inferInstanceAs (Decidable (1 ≤ n))
  | .RAID1 | .RAID0_1 | .RAID4 | .RAID5 => inferInstanceAs (Decidable (2 ≤ n))
  | .other _ => inferInstanceAs (Decidable False)

/-! ### Quotients and remainders -/

/-- A remainder of a number below twice the modulus. -/
theorem mod_of_lt_two_mul {x n : ℕ} (h : x < 2 * n) : x % n = if x < n then x else x - n := by
  split
  case isTrue hx => exact Nat.mod_eq_of_lt hx
  case isFalse hx =>
    rw [Nat.mod_eq_sub_mod (by omega), Nat.mod_eq_of_lt (by omega)]

/-- Remainder and quotient, both counted from chosen origins, number a grid of `n` columns. -/
theorem divMod_bijOn (n o : ℕ) (hn : 1 ≤ n) :
    Set.BijOn (fun b => (b % n + o, b / n + 1)) Set.univ {p | o ≤ p.1 ∧ p.1 < n + o ∧ 1 ≤ p.2} := by
  have hinv : Set.InvOn (fun p : ℕ × ℕ => n * (p.2 - 1) + (p.1 - o))
      (fun b => (b % n + o, b / n + 1)) Set.univ {p | o ≤ p.1 ∧ p.1 < n + o ∧ 1 ≤ p.2} := by
    constructor
    · intro b _
      simp [Nat.div_add_mod]
    · rintro ⟨c, q⟩ ⟨h₁, h₂, h₃⟩
      simp only at h₁ h₂ h₃
      have hc : c - o < n := by omega
      ext
      · simp [Nat.mod_eq_of_lt hc]
        omega
      · simp [Nat.mul_add_div hn, Nat.div_eq_of_lt hc]
        omega
  refine hinv.bijOn ?_ fun p _ => Set.mem_univ _
  intro b _
  have hlt := Nat.mod_lt b (show 0 < n by omega)
  exact ⟨Nat.le_add_left _ _, Nat.add_lt_add_right hlt o, Nat.le_add_left _ _⟩

/-! ### The rotation of RAID 5 -/

/-- Counting `r` disks on from the disk after `p` misses `p`. -/
theorem rotate_spec {n p r : ℕ} (hp₁ : 1 ≤ p) (hp₂ : p ≤ n) (hr : r < n - 1) :
    1 ≤ (p + r) % n + 1 ∧ (p + r) % n + 1 ≤ n ∧ (p + r) % n + 1 ≠ p ∧
      ((p + r) % n + 1 + n - 1 - p) % n = r := by
  rw [mod_of_lt_two_mul (show p + r < 2 * n by omega)]
  split
  case isTrue h =>
    refine ⟨by omega, by omega, by omega, ?_⟩
    rw [mod_of_lt_two_mul (by omega), if_neg (by omega)]
    omega
  case isFalse h =>
    refine ⟨by omega, by omega, by omega, ?_⟩
    rw [mod_of_lt_two_mul (by omega), if_pos (by omega)]
    omega

/-- Every disk other than `p` is reached by counting on from `p`. -/
theorem rotate_surj {n p d : ℕ} (hp₁ : 1 ≤ p) (hp₂ : p ≤ n) (hd₁ : 1 ≤ d) (hd₂ : d ≤ n)
    (hdp : d ≠ p) :
    (d + n - 1 - p) % n < n - 1 ∧ (p + (d + n - 1 - p) % n) % n + 1 = d := by
  rw [mod_of_lt_two_mul (show d + n - 1 - p < 2 * n by omega)]
  split
  case isTrue h =>
    refine ⟨by omega, ?_⟩
    rw [mod_of_lt_two_mul (by omega), if_neg (by omega)]
    omega
  case isFalse h =>
    refine ⟨by omega, ?_⟩
    rw [mod_of_lt_two_mul (by omega), if_pos (by omega)]
    omega

theorem parityOf_mem {t : RaidType} {n : ℕ} (hn : 1 ≤ n) (k : ℕ) :
    1 ≤ parityOf t n k ∧ parityOf t n k ≤ n := by
  have := Nat.mod_lt (k - 1) (show 0 < n by omega)
  unfold parityOf
  split <;> omega

/-- **The rotation is fair**: each disk is the parity disk of exactly one of `n` consecutive
stripes. -/
theorem existsUnique_parity {n s d : ℕ} (hs : 1 ≤ s) (hd₁ : 1 ≤ d) (hd₂ : d ≤ n) :
    ∃! i, i < n ∧ parityOf .RAID5 n (s + i) = d := by
  -- with `o` the offset of the first stripe, the parity disk of stripe `s + i` is `n - (o + i) % n`
  set o := (s - 1) % n with ho
  have hon : o < n := Nat.mod_lt _ (by omega)
  have hpar : ∀ i < n, parityOf .RAID5 n (s + i) =
      n - (if o + i < n then o + i else o + i - n) := by
    intro i hi
    have hsi : s + i - 1 = s - 1 + i := by omega
    have hmod : (s - 1 + i) % n = (o + i) % n := by rw [ho, Nat.mod_add_mod]
    rw [parityOf, if_pos rfl, hsi, hmod, mod_of_lt_two_mul (by omega)]
  refine ⟨if o ≤ n - d then n - d - o else n - d + n - o, ?_, ?_⟩
  · have hi : (if o ≤ n - d then n - d - o else n - d + n - o) < n := by split <;> omega
    refine ⟨hi, ?_⟩
    rw [hpar _ hi]
    grind
  · rintro i ⟨hi, hd⟩
    rw [hpar i hi] at hd
    grind

/-! ### Parity arrays -/

section ParityArray

variable {t : RaidType} {n : ℕ}

theorem stripeOf_pos (n b : ℕ) : 1 ≤ stripeOf n b := Nat.le_add_left 1 _

/-- The disk of a block is one of the disks, and not the parity disk of its stripe. -/
theorem dataDiskOf_spec (hn : 2 ≤ n) (b : ℕ) :
    1 ≤ dataDiskOf t n b ∧ dataDiskOf t n b ≤ n ∧
      dataDiskOf t n b ≠ parityOf t n (stripeOf n b) := by
  have hr := Nat.mod_lt b (show 0 < n - 1 by omega)
  unfold dataDiskOf
  split
  case isTrue h =>
    subst h
    have hp := parityOf_mem (t := .RAID5) (show 1 ≤ n by omega) (stripeOf n b)
    have h := rotate_spec hp.1 hp.2 hr
    exact ⟨h.1, h.2.1, h.2.2.1⟩
  case isFalse h =>
    rw [parityOf, if_neg h]
    omega

/-- A block is determined by its disk and its stripe. -/
theorem dataDiskOf_inj (hn : 2 ≤ n) {b b' : ℕ} (hs : stripeOf n b = stripeOf n b')
    (hd : dataDiskOf t n b = dataDiskOf t n b') : b = b' := by
  have hr := Nat.mod_lt b (show 0 < n - 1 by omega)
  have hr' := Nat.mod_lt b' (show 0 < n - 1 by omega)
  have hq : b / (n - 1) = b' / (n - 1) := Nat.succ_injective hs
  have hmod : b % (n - 1) = b' % (n - 1) := by
    unfold dataDiskOf at hd
    split at hd
    case isTrue h =>
      rw [hs] at hd
      have hp := parityOf_mem (t := .RAID5) (show 1 ≤ n by omega) (stripeOf n b')
      have h₁ := (rotate_spec hp.1 hp.2 hr).2.2.2
      have h₂ := (rotate_spec hp.1 hp.2 hr').2.2.2
      rw [← h₁, ← h₂, hd]
    case isFalse h => omega
  rw [← Nat.div_add_mod b (n - 1), ← Nat.div_add_mod b' (n - 1), hq, hmod]

/-- Every disk of a stripe other than its parity disk holds a block. -/
theorem exists_dataDiskOf (ht : t = .RAID4 ∨ t = .RAID5) (hn : 2 ≤ n) {d k : ℕ} (hd₁ : 1 ≤ d)
    (hd₂ : d ≤ n) (hk : 1 ≤ k) (hdp : d ≠ parityOf t n k) :
    ∃ b, dataDiskOf t n b = d ∧ stripeOf n b = k := by
  have hstripe : ∀ r < n - 1, stripeOf n ((n - 1) * (k - 1) + r) = k := by
    intro r hr
    rw [stripeOf, Nat.mul_add_div (by omega), Nat.div_eq_of_lt hr]
    omega
  have hmod : ∀ r < n - 1, ((n - 1) * (k - 1) + r) % (n - 1) = r := by
    intro r hr
    rw [Nat.mul_add_mod, Nat.mod_eq_of_lt hr]
  rcases ht with rfl | rfl
  · have hdn : d ≠ n := by simpa [parityOf] using hdp
    have hr : d - 1 < n - 1 := by omega
    refine ⟨(n - 1) * (k - 1) + (d - 1), ?_, hstripe _ hr⟩
    rw [dataDiskOf, if_neg (by decide), hmod _ hr]
    omega
  · have hp := parityOf_mem (t := .RAID5) (show 1 ≤ n by omega) k
    have h := rotate_surj hp.1 hp.2 hd₁ hd₂ hdp
    refine ⟨(n - 1) * (k - 1) + (d + n - 1 - parityOf .RAID5 n k) % n, ?_, hstripe _ h.1⟩
    rw [dataDiskOf, if_pos rfl, hstripe _ h.1, hmod _ h.1]
    exact h.2

theorem readRaid4Addr_eq (n b : ℕ) :
    readRaid4Addr (n - 1) b = (dataDiskOf .RAID4 n b, stripeOf n b) := rfl

theorem writeRaid4Addr_eq (n b : ℕ) :
    writeRaid4Addr (n - 1) b = (dataDiskOf .RAID4 n b, stripeOf n b) := rfl

theorem readRaid5Addr_eq (n b : ℕ) : readRaid5Addr n b =
    (dataDiskOf .RAID5 n b, parityOf .RAID5 n (stripeOf n b), stripeOf n b) := by
  simp [readRaid5Addr, dataDiskOf, parityOf, stripeOf]

theorem writeRaid5Addr_eq (n b : ℕ) : writeRaid5Addr n b =
    (dataDiskOf .RAID5 n b, parityOf .RAID5 n (stripeOf n b), stripeOf n b) := by
  simp [writeRaid5Addr, dataDiskOf, parityOf, stripeOf]

end ParityArray

/-! ### The bijection -/

/-- **Placement is a bijection.**  Reader and writer of a type agree on the place of every logical
block, and the places of the logical blocks are exactly those meant for data, each taken once. -/
theorem readPlace_bijOn {t : RaidType} {n : ℕ} (h : Supports t n) :
    Set.BijOn (readPlace t n) Set.univ (positions t n) := by
  have hmirror : 2 ≤ n → Set.BijOn (fun b => (b % (n / 2) + 0, b / (n / 2) + 1)) Set.univ
      {p | p.1 < n / 2 ∧ 1 ≤ p.2} := by
    intro hn
    have hb := divMod_bijOn (n / 2) 0 (by omega)
    simpa using hb
  cases t with
  | RAID0 =>
    have hb := divMod_bijOn n 1 h
    simp only [Nat.lt_succ_iff] at hb
    exact hb
  | RAID1 => exact hmirror h
  | RAID0_1 => exact hmirror h
  | RAID4 =>
    have hb := divMod_bijOn (n - 1) 1 (by simp only [Supports] at h; omega)
    simp only [Nat.lt_succ_iff] at hb
    exact hb
  | RAID5 =>
    have hn : 2 ≤ n := h
    have hread : ∀ b, readPlace .RAID5 n b = (dataDiskOf .RAID5 n b, stripeOf n b) := by
      intro b
      simp [readPlace, numOfDisksOf, readRaid5Addr_eq]
    refine ⟨?_, ?_, ?_⟩
    · intro b _
      have hd := dataDiskOf_spec (t := .RAID5) hn b
      rw [hread]
      exact ⟨hd.1, hd.2.1, stripeOf_pos n b, hd.2.2⟩
    · intro b _ b' _ hbb
      rw [hread, hread, Prod.mk.injEq] at hbb
      exact dataDiskOf_inj hn hbb.2 hbb.1
    · rintro ⟨d, k⟩ ⟨hd₁, hd₂, hk, hdp⟩
      obtain ⟨b, hb₁, hb₂⟩ := exists_dataDiskOf (.inr rfl) hn hd₁ hd₂ hk hdp
      exact ⟨b, Set.mem_univ _, by rw [hread, hb₁, hb₂]⟩
  | other v => exact absurd h id

theorem writePlace_eq_readPlace (t : RaidType) (n b : ℕ) : writePlace t n b = readPlace t n b := by
  cases t with
  | RAID5 => simp [writePlace, readPlace, readRaid5Addr_eq, writeRaid5Addr_eq]
  | _ => rfl

theorem one_le_of_mem_positions {t : RaidType} {n : ℕ} {p : ℕ × ℕ} (hp : p ∈ positions t n) :
    1 ≤ p.2 := by
  cases t with
  | RAID0 => exact hp.2.2
  | RAID1 => exact hp.2
  | RAID0_1 => exact hp.2
  | RAID4 => exact hp.2.2
  | RAID5 => exact hp.2.2.1
  | other v => exact hp.elim

/-- **Placement.**  Reader and writer agree; the logical blocks are placed one to one onto the
places meant for data, none of which is in block `0`; and for `RAID5` reader and writer use the
parity disk `parityOf`, which in `n` consecutive stripes visits every disk once. -/
theorem placement_spec {t : RaidType} {n : ℕ} (h : Supports t n) :
    (∀ b, writePlace t n b = readPlace t n b) ∧
    Set.BijOn (readPlace t n) Set.univ (positions t n) ∧
    (∀ p ∈ positions t n, 1 ≤ p.2) ∧
    (t = .RAID5 →
      (∀ b, (readRaid5Addr n b).2.1 = parityOf .RAID5 n (readPlace t n b).2 ∧
        (writeRaid5Addr n b).2.1 = parityOf .RAID5 n (readPlace t n b).2) ∧
      ∀ s d, 1 ≤ s → 1 ≤ d → d ≤ n → ∃! i, i < n ∧ parityOf .RAID5 n (s + i) = d) := by
  refine ⟨writePlace_eq_readPlace t n, readPlace_bijOn h, fun p => one_le_of_mem_positions, ?_⟩
  rintro rfl
  refine ⟨fun b => ?_, fun s d => existsUnique_parity⟩
  simp [readPlace, numOfDisksOf, readRaid5Addr_eq, writeRaid5Addr_eq]

theorem placement_spec_four : Supports .RAID5 4 ∧
    Set.BijOn (readPlace .RAID5 4) Set.univ (positions .RAID5 4) :=
  ⟨by simp [Supports], (placement_spec (t := .RAID5) (n := 4) (by simp [Supports])).2.1⟩

end RaidSystem
