/-
**Loading a stripe into the cache.**

`cache` reads block `stripe` of every disk that is not dead into the slot of the disk, and then that
of the parity disk once more.  Slots are 512 bytes apart and a transfer brings 1024, so each
transfer reaches into the sector after its slot.  A slot that is spilled into is right again as soon
as its own disk is loaded.  Three spills are not repaired:

* that of disk `DISKS`, which ends behind the last slot, and from seven disks on behind the page;
* that of the second load of the parity block of a `RAID5` stripe, which ends in the slot of the
  next disk;
* those into the slots of dead disks, which do no harm.

Main definitions:

* `cacheArgs` — the arguments with which the access functions call `cache`;
* `LoadsExactly` — every slot holds the first half of its block, and nothing else has changed;
* `CacheExact` — it is loaded so, whatever is on the disks and in memory;
* `SpillHarmless` — no transfer reaches behind the slots, and none of the parity block into the slot
  of a disk that is not dead.

Main results:

* `cache_exact` — **loading a stripe is exact if and only if the spills are harmless**;
* `parity_spills` — with three disks and all of them alive, it is not.
-/

import RaidSystem.StripeCache

set_option autoImplicit false

namespace RaidSystem

open Prog

/-! ### Definitions -/

/-- The stripe and the parity disk that `read_raid4` and `read_raid5` pass to `cache` for block `b`;
the functions that write compute the same. -/
def cacheArgs (m : Raid) (b : ℕ) : ℕ × ℤ :=
  match m.type with
  | .RAID5 => ((readRaid5Addr m.numOfDisks b).2.2, (readRaid5Addr m.numOfDisks b).2.1 - 1)
  | _ => ((readRaid4Addr m.numOfDisks b).2, m.parityDisk)

/-- `s'` is `s` after stripe `k` with parity disk `q` was loaded: every disk that is not dead has
the first half of its block in its slot, and outside the slots nothing but the three fields has
changed. -/
structure LoadsExactly (cfg : Config) (m : Raid) (k : ℕ) (q : ℤ) (s s' : Machine) : Prop where
  slot : ∀ d, LiveDisk cfg m d → s'.page d = s.disk d (2 * k)
  outside : ∀ j, cfg.disks < j → s'.page j = s.page j
  raidMetadata : s'.raidMetadata = some { m with stripe := k, parityCached := q, parityDisk := q }
  super : s'.super = s.super
  disk : s'.disk = s.disk
  kmem : s'.kmem = s.kmem
  pages : s'.pages = s.pages

/-- With the metadata `m`, `cache` loads the stripe of block `b` exactly if it comes back, and it
comes back if the stripe lies on the disks. -/
def CacheExact (cfg : Config) (m : Raid) (b : ℕ) : Prop :=
  ∀ s : Machine, s.raidMetadata = some m →
    (cfg.OnDisk (cacheArgs m b).1 →
      ∃ s', Returns (cache cfg (cacheArgs m b).1 (cacheArgs m b).2) s () s') ∧
    ∀ s', Returns (cache cfg (cacheArgs m b).1 (cacheArgs m b).2) s () s' →
      LoadsExactly cfg m (cacheArgs m b).1 (cacheArgs m b).2 s s'

/-- The disks that are not dead come before disk `DISKS`, their transfers stay in the page, and the
parity disk `q` is dead or followed by a dead disk. -/
def SpillHarmless (cfg : Config) (m : Raid) (q : ℤ) : Prop :=
  ∀ d, LiveDisk cfg m d →
    d < cfg.disks ∧ (d + 2) * blocksize ≤ pgsize ∧ ((d : ℤ) = q + 1 → m.Dead (d + 1))

variable {cfg : Config} {s s' : Machine} {m : Raid} {k p : ℕ}

/-! ### The arguments -/

/-- The parity disk that is passed to `cache` exists, and together with the data disks it makes up
all disks. -/
theorem ParityLayout.cacheArgs_parity (hn : 1 ≤ cfg.disks) (hl : ParityLayout cfg m) (b : ℕ) :
    ∃ p : ℕ, (cacheArgs m b).2 = p - 1 ∧ 1 ≤ p ∧ p ≤ cfg.disks ∧
      ∀ d ≤ cfg.disks, d ≤ m.numOfDisks ∨ d = p := by
  rcases hl with ⟨ht, hnum, hp⟩ | ⟨ht, hnum⟩
  · refine ⟨cfg.disks, ?_, hn, le_rfl, fun d hd => by omega⟩
    rw [cacheArgs, ht]
    exact hp
  · have hmod := Nat.mod_lt (b / (cfg.disks - 1) + 1 - 1) (show 0 < cfg.disks by omega)
    refine ⟨(readRaid5Addr m.numOfDisks b).2.1, ?_, ?_, ?_, fun d hd => .inl (by omega)⟩
    · rw [cacheArgs, ht]
    · rw [hnum, readRaid5Addr]
      simp only
      omega
    · rw [hnum, readRaid5Addr]
      simp only
      omega

theorem ParityLayout.numOfDisks_le (hl : ParityLayout cfg m) : m.numOfDisks ≤ cfg.disks := by
  rcases hl with h | h <;> omega

/-! ### Exactness -/

/-- Loading a stripe whose spills are harmless, when all blocks can be loaded. -/
theorem loadsExactly_of_harmless (hm : s.raidMetadata = some m) (hn : m.numOfDisks ≤ cfg.disks)
    (hp₁ : 1 ≤ p) (hp₂ : p ≤ cfg.disks) (hall : ∀ d ≤ cfg.disks, d ≤ m.numOfDisks ∨ d = p)
    (hP : SpillHarmless cfg m (p - 1)) (hload : ∀ d, LiveDisk cfg m d → Loadable cfg k d) :
    ∃ s', Returns (cache cfg k (p - 1)) s () s' ∧ LoadsExactly cfg m k (p - 1) s s' := by
  have hle : ∀ d, d ≤ m.numOfDisks ∨ d = p → d ≤ cfg.disks := by
    rintro d (hd | rfl)
    · exact Nat.le_trans hd hn
    · exact hp₂
  obtain ⟨page, hr, hpage, -, hframe⟩ := cache_returns hm hn hp₁ hp₂
    fun d h₁ h₂ hd => hload d ⟨h₁, hle d h₂, hd⟩
  refine ⟨_, hr, ?_, ?_, rfl, rfl, rfl, rfl, rfl⟩
  · intro d hd
    refine hpage d hd.1 (hall d hd.2.1) hd.2.2 fun hdp => ?_
    -- the slot after that of the parity disk belongs to a disk that is not dead
    by_contra hlive
    refine hd.2.2 (hdp ▸ (hP p ⟨hp₁, hp₂, hlive⟩).2.2 ?_)
    omega
  · intro j hj
    refine hframe j fun d h₁ h₂ hd => ?_
    have hlt := (hP d ⟨h₁, hle d h₂, hd⟩).1
    omega

/-- The disks hold zeros in the first halves of their blocks and ones in the second halves. -/
def halvesMachine (m : Raid) : Machine :=
  { blankMachine with
    raidMetadata := some m
    disk := fun _ j _ => if j % 2 = 0 then 0 else Bits.ofNat 8 1 }

theorem halvesMachine_fst (d : ℕ) : (halvesMachine m).disk d (2 * k) = 0 := by
  funext i
  exact if_pos (Nat.mul_mod_right 2 k)

theorem halvesMachine_snd (d : ℕ) : (halvesMachine m).disk d (2 * k + 1) ≠ 0 := by
  intro heq
  have hbyte := congrFun heq 0
  simp only [halvesMachine, Nat.mul_add_mod] at hbyte
  revert hbyte
  decide

/-- If a stripe on the disks is loaded exactly whatever is on them, the spills are harmless. -/
theorem harmless_of_loadsExactly (hn : m.numOfDisks ≤ cfg.disks) (hp₁ : 1 ≤ p) (hp₂ : p ≤ cfg.disks)
    (hall : ∀ d ≤ cfg.disks, d ≤ m.numOfDisks ∨ d = p)
    (hexact : ∀ s : Machine, s.raidMetadata = some m → ∃ s', Returns (cache cfg k (p - 1)) s () s' ∧
      LoadsExactly cfg m k (p - 1) s s') : SpillHarmless cfg m (p - 1) := by
  have hm : (halvesMachine m).raidMetadata = some m := rfl
  obtain ⟨s', hr, hloads⟩ := hexact _ hm
  have hload : ∀ d, 1 ≤ d → d ≤ m.numOfDisks ∨ d = p → ¬ m.Dead d → Loadable cfg k d :=
    fun d h₁ h₂ hd => loads_of_cache hm h₁ (by omega) h₂ hd hr
  obtain ⟨page, hr', -, hspill, -⟩ := cache_returns hm hn hp₁ hp₂ hload
  obtain ⟨-, rfl⟩ := hr.unique hr'
  rintro d ⟨h₁, h₂, hd⟩
  have hlt : d < cfg.disks := by
    -- the sector behind the slots would hold ones
    by_contra hge
    have hout : page (d + 1) = 0 := hloads.outside (d + 1) (by omega)
    rw [hspill d h₁ (by have := hall d h₂; omega) hd] at hout
    exact halvesMachine_snd d hout
  refine ⟨hlt, (hload d h₁ (hall d h₂) hd).2, fun hq => ?_⟩
  -- the slot after that of the parity disk would hold ones
  obtain rfl : d = p := by omega
  by_contra hnext
  have hslot : page (d + 1) = _ := hloads.slot (d + 1) ⟨by omega, by omega, hnext⟩
  rw [hspill d h₁ (.inl rfl) hd, halvesMachine_fst] at hslot
  exact halvesMachine_snd d hslot

/-- **Loading a stripe is exact**, whatever is on the disks and in memory, if and only if no
transfer reaches behind the slots, and none of the parity block into the slot of a disk that is not
dead; or the stripe is not on the disks. -/
theorem cache_exact (hn : 3 ≤ cfg.disks) (hl : ParityLayout cfg m) (b : ℕ) : CacheExact cfg m b ↔
    (cfg.OnDisk (cacheArgs m b).1 → SpillHarmless cfg m (cacheArgs m b).2) := by
  obtain ⟨p, hq, hp₁, hp₂, hall⟩ := hl.cacheArgs_parity (Nat.le_of_add_left_le hn) b
  rw [CacheExact, hq]
  constructor
  · intro hexact hk
    refine harmless_of_loadsExactly (k := (cacheArgs m b).1) hl.numOfDisks_le hp₁ hp₂ hall
      fun s hm => ?_
    obtain ⟨s', hr⟩ := (hexact s hm).1 hk
    exact ⟨s', hr, (hexact s hm).2 s' hr⟩
  · intro hP s hm
    constructor
    · intro hk
      obtain ⟨s', hr, -⟩ := loadsExactly_of_harmless hm hl.numOfDisks_le hp₁ hp₂ hall (hP hk)
        fun d hd => ⟨hk, (hP hk d hd).2.1⟩
      exact ⟨s', hr⟩
    · intro s' hr
      -- since the call came back, all the blocks could be loaded
      have hload : ∀ d, LiveDisk cfg m d → Loadable cfg _ d := fun d hd =>
        loads_of_cache hm hd.1 hd.2.1 (hall d hd.2.1) hd.2.2 hr
      obtain ⟨s₁, hr₁, hexact⟩ := loadsExactly_of_harmless hm hl.numOfDisks_le hp₁ hp₂ hall
        (fun d hd => hP (hload d hd).1 d hd) hload
      obtain ⟨-, rfl⟩ := hr.unique hr₁
      exact hexact

/-- A `RAID4` array of three disks that has lost its parity disk. -/
def withoutParity : Raid := markDead (freshMeta (smallConfig 3) .RAID4) 3

theorem spillHarmless_withoutParity : SpillHarmless (smallConfig 3) withoutParity 2 := by
  rintro d ⟨h₁, h₂, hd⟩
  have h₂ : d ≤ 3 := h₂
  have hne : d ≠ 3 := by
    rintro rfl
    exact hd rfl
  have hlt : d + 2 ≤ 4 := by omega
  refine ⟨show d < 3 by omega, Nat.le_trans (Nat.mul_le_mul_right blocksize hlt) (by decide),
    fun h => ?_⟩
  omega

/-- A stripe is loaded exactly without the parity disk of `RAID4`, and not with all disks of
`RAID5`. -/
theorem cache_exact_three : 3 ≤ (smallConfig 3).disks ∧
    (∃ s', Returns (cache (smallConfig 3) 1 2)
      (blankMachine.withMeta withoutParity) () s' ∧
      LoadsExactly (smallConfig 3) withoutParity 1 2
        (blankMachine.withMeta withoutParity) s') ∧
    ¬ CacheExact (smallConfig 3) (freshMeta (smallConfig 3) .RAID5) 2 := by
  have hn : 3 ≤ (smallConfig 3).disks := by decide
  refine ⟨hn, ?_, fun hexact => ?_⟩
  · have hexact : CacheExact (smallConfig 3) withoutParity 0 :=
      (cache_exact hn (.inl ⟨rfl, rfl, rfl⟩) 0).2 fun _ => spillHarmless_withoutParity
    obtain ⟨hreturns, hloads⟩ := hexact (blankMachine.withMeta withoutParity) rfl
    obtain ⟨s', hr⟩ := hreturns (by decide)
    exact ⟨s', hr, hloads s' hr⟩
  · have hharmless := (cache_exact hn (.inr ⟨rfl, rfl⟩) 2).1 hexact (by decide)
    exact absurd (hharmless 3 ⟨by decide, by decide, not_dead_freshMeta _ _ 3⟩).1 (by decide)

/-- A `RAID5` array whose disks are zero but for the second half of block `2` of disk `2`. -/
def spillingMachine : Machine :=
  { blankMachine with
    raidMetadata := some (freshMeta (smallConfig 3) .RAID5)
    disk := fun d j _ => if d = 2 ∧ j = 5 then Bits.ofNat 8 1 else 0 }

/-- **Disk `2` is the parity disk of stripe `2`, and all three disks are alive**: the slot of disk
`3` ends with the second half of the parity block. -/
theorem parity_spills :
    ¬ ∀ m b, ParityLayout (smallConfig 3) m → CacheExact (smallConfig 3) m b := by
  intro hall
  have hm : spillingMachine.raidMetadata = some (freshMeta (smallConfig 3) .RAID5) := rfl
  have hl : ParityLayout (smallConfig 3) (freshMeta (smallConfig 3) .RAID5) := .inr ⟨rfl, rfl⟩
  have hfit : (smallConfig 3).CacheFits := by decide
  have hk : (smallConfig 3).OnDisk 2 := by decide
  obtain ⟨page, hr, -, hspill, -⟩ := cache_returns (p := 2) hm le_rfl (by decide) (by decide)
    fun d _ h₂ _ => hfit.loadable hk (by rcases h₂ with h | rfl; exacts [h, by decide])
  have hexact := (hall _ 2 hl _ hm).2 _ hr
  have hslot := hexact.slot 3 ⟨by decide, by decide, not_dead_freshMeta _ _ 3⟩
  have hthree : page 3 = spillingMachine.disk 2 5 :=
    hspill 2 (by decide) (.inl rfl) (not_dead_freshMeta _ _ 2)
  have hbyte : spillingMachine.disk 2 5 0 = spillingMachine.disk 3 4 0 :=
    congrFun (hthree.symm.trans hslot) 0
  exact absurd hbyte (by decide)

end RaidSystem
