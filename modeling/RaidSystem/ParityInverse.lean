/-
**Updating the parity and rebuilding a slot are inverse.**

`raid_write_updateparity_cache` and `raid_tocache_recovery` work on the cache slots, 512 bytes each.
In the kernel the slots are the sectors of one page, so there are at most seven of them; what the
loops of the two functions compute does not depend on that.  Here they are run on any number of
slots, one for each disk and one after the other in memory, so that no two of them overlap:
`updateSlots` and `recoverSlots` are the loops of the two functions, and
`raidWriteUpdateparityCache_page` and `raidTocacheRecovery_page` say that the functions run them on
the page.

The two types differ in where the parity slot is.  For `RAID4` it comes after the slots that the
loop of `raid_tocache_recovery` adds up, and is added afterwards; for `RAID5` it is one of them.

Main definitions:

* `XorZero` — the slots of all disks add up to zero, byte by byte;
* `updateAll` — a sequence of writes, the latest first, and `latestData`, what they leave;
* `CachedStripe` — the metadata while a stripe with a given parity disk is cached.

Main result:

* `parity_inverse` — **writes keep the sum zero, and any one data slot can be rebuilt**.
-/

import RaidSystem.StripeCache

set_option autoImplicit false

namespace RaidSystem

open Prog Finset Function

/-! ### Definitions -/

/-- The loop of `raid_write_updateparity_cache`: slot `p` is that of the parity disk. -/
def updateSlots (p d : ℕ) (x : Sector) (slots : ℕ → Sector) : ℕ → Sector :=
  forBytes (fun i => updateByte p d (x i)) slots

/-- The loop of `raid_tocache_recovery`. -/
def recoverSlots (m : Raid) (d : ℕ) (slots : ℕ → Sector) : ℕ → Sector :=
  if m.type = .RAID4 then
    forBytes (fun _ => recoverByte d m.numOfDisks (some (m.parityDisk + 1).toNat)) slots
  else forBytes (fun _ => recoverByte d m.numOfDisks none) slots

/-- The slots of all disks add up to zero, byte by byte. -/
def XorZero (cfg : Config) (slots : ℕ → Sector) : Prop := ∑ e ∈ Icc 1 cfg.disks, slots e = 0

/-- A sequence of writes, the latest first. -/
def updateAll (p : ℕ) : List (ℕ × Sector) → (ℕ → Sector) → ℕ → Sector
  | [], slots => slots
  | (d, x) :: ws, slots => updateSlots p d x (updateAll p ws slots)

/-- What the latest write to disk `d` has written. -/
def latestData : List (ℕ × Sector) → ℕ → Option Sector
  | [], _ => none
  | (e, x) :: ws, d => if e = d then some x else latestData ws d

/-- A stripe with parity disk `p` is cached. -/
structure CachedStripe (cfg : Config) (m : Raid) (p : ℕ) : Prop where
  layout : ParityLayout cfg m
  parityCached : m.parityCached = p - 1
  pos : 1 ≤ p
  le : p ≤ cfg.disks
  raid4 : m.type = .RAID4 → p = cfg.disks

/-- A disk other than the parity disk. -/
def DataDisk (cfg : Config) (p d : ℕ) : Prop := 1 ≤ d ∧ d ≤ cfg.disks ∧ d ≠ p

variable {cfg : Config} {s s' : Machine} {m : Raid} {p d : ℕ} {slots : ℕ → Sector} {x : Sector}

/-! ### The slots -/

theorem updateSlots_eq (hpd : d ≠ p) : updateSlots p d x slots = updatedPage slots p d x :=
  forBytes_updateByte hpd

/-- A write keeps the sum. -/
theorem XorZero.updateSlots (hz : XorZero cfg slots) (hc : CachedStripe cfg m p)
    (hd : DataDisk cfg p d) :
    XorZero cfg (updateSlots p d x slots) := by
  obtain ⟨h₁, h₂, hpd⟩ := hd
  rw [XorZero, updateSlots_eq hpd]
  rw [XorZero] at hz
  exact (Parity.sum_update_pair slots (mem_Icc.2 ⟨hc.pos, hc.le⟩) (mem_Icc.2 ⟨h₁, h₂⟩) hpd.symm
    x).trans hz

/-- The slots after a slot was rebuilt. -/
theorem recoverSlots_eq (hc : CachedStripe cfg m p) (hd : DataDisk cfg p d) (slots : ℕ → Sector) :
    recoverSlots m d slots = update slots d (∑ e ∈ (Icc 1 cfg.disks).erase d, slots e) := by
  obtain ⟨h₁, h₂, hpd⟩ := hd
  rcases hc.layout with ⟨ht, hnum, hp⟩ | ⟨ht, hnum⟩
  · -- the parity slot comes after those of the loop
    have hdn : d ≤ m.numOfDisks := by
      have := hc.raid4 ht
      omega
    have hparity : (m.parityDisk + 1).toNat = m.numOfDisks + 1 := by omega
    rw [recoverSlots, if_pos ht, hparity, ← hnum]
    funext j i
    simp only [forBytes, recoverByte_some hdn, update_apply]
    split <;> simp
  · rw [recoverSlots, if_neg (by rw [ht]; decide), hnum]
    funext j i
    simp only [forBytes, recoverByte_none, update_apply]
    split <;> simp

/-- Rebuilding a slot, whatever it holds, restores it. -/
theorem XorZero.recoverSlots (hz : XorZero cfg slots) (hc : CachedStripe cfg m p)
    (hd : DataDisk cfg p d) (y : Sector) : recoverSlots m d (update slots d y) = slots := by
  have hmem : d ∈ Icc 1 cfg.disks := mem_Icc.2 ⟨hd.1, hd.2.1⟩
  have hothers : ∑ e ∈ (Icc 1 cfg.disks).erase d, update slots d y e = slots d := by
    rw [Parity.eq_sum_erase_of_sum_eq_zero hz hmem]
    exact Finset.sum_congr rfl fun e he => update_of_ne (ne_of_mem_erase he) _ _
  rw [recoverSlots_eq hc hd, hothers, update_idem, update_eq_self]

/-- Writes keep the sum. -/
theorem XorZero.updateAll (hz : XorZero cfg slots) (hc : CachedStripe cfg m p)
    {ws : List (ℕ × Sector)}
    (hws : ∀ w ∈ ws, DataDisk cfg p w.1) : XorZero cfg (updateAll p ws slots) := by
  induction ws with
  | nil => exact hz
  | cons w ws ih =>
    exact (ih fun w' hw' => hws w' (List.mem_cons_of_mem w hw')).updateSlots hc
      (hws w List.mem_cons_self)

/-- A written disk is not the parity disk. -/
theorem latestData_ne {ws : List (ℕ × Sector)} (hws : ∀ w ∈ ws, DataDisk cfg p w.1)
    (hx : latestData ws d = some x) : d ≠ p := by
  induction ws with
  | nil => cases hx
  | cons w ws ih =>
    rw [latestData] at hx
    split at hx
    case isTrue hed => exact hed ▸ (hws w List.mem_cons_self).2.2
    case isFalse => exact ih (fun w hw => hws w (List.mem_cons_of_mem _ hw)) hx

/-- The slot of a written disk holds its latest data. -/
theorem updateAll_latest {ws : List (ℕ × Sector)} (hws : ∀ w ∈ ws, DataDisk cfg p w.1)
    (hx : latestData ws d = some x) : updateAll p ws slots d = x := by
  induction ws with
  | nil => cases hx
  | cons w ws ih =>
    obtain ⟨e, y⟩ := w
    have hep : e ≠ p := (hws (e, y) List.mem_cons_self).2.2
    have hrest : ∀ w ∈ ws, DataDisk cfg p w.1 := fun w hw => hws w (List.mem_cons_of_mem _ hw)
    rw [RaidSystem.updateAll, updateSlots_eq hep]
    rw [latestData] at hx
    split at hx
    case isTrue hed =>
      obtain rfl := Option.some_inj.1 hx
      rw [← hed, updatedPage_data hep]
    case isFalse hed =>
      -- a later write to another disk does not touch the slot, for it is not the parity slot
      rw [updatedPage_of_ne (latestData_ne hrest hx) fun h => hed h.symm]
      exact ih hrest hx

/-! ### The functions -/

theorem preserves_page_syncDisk {k : ℕ} {i : ℤ} : Preserves Machine.page (syncDisk cfg k i) := by
  refine preserves_dead.ifFalse (preserves_storeSlot.bind fun b s u s' h => ?_)
  rw [(returns_writeBlock.1 h).2.2]
  rfl

/-- What `raid_write_updateparity_cache` does to the slots in the page. -/
theorem raidWriteUpdateparityCache_page (hm : s.raidMetadata = some m) (hp : m.parityCached = p - 1)
    (hd : 1 ≤ d) (h : Returns (raidWriteUpdateparityCache cfg d x) s () s') :
    s'.page = updateSlots p d x s.page ∧ s'.raidMetadata = s.raidMetadata := by
  refine ⟨?_, dataFrame_raidMetadata.raidWriteUpdateparityCache _ _ _ h⟩
  rw [raidWriteUpdateparityCache, (metadata_returns hm).bind_iff, hp] at h
  obtain ⟨p', s₁, hparity, h₁⟩ := returns_bind.1 h
  obtain ⟨⟨h₀, -⟩, rfl, rfl⟩ := returns_slotSector.1 hparity
  obtain ⟨d', s₂, hdata, h₂⟩ := returns_bind.1 h₁
  obtain ⟨-, rfl, rfl⟩ := returns_slotSector.1 hdata
  obtain ⟨_, s₃, hmodify, h₃⟩ := returns_bind.1 h₂
  obtain ⟨_, s₄, hsync, hsync'⟩ := returns_bind.1 h₃
  have hpage : s'.page = s₃.page :=
    (preserves_page_syncDisk _ _ _ hsync').trans (preserves_page_syncDisk _ _ _ hsync)
  rw [hpage, returns_modify.1 hmodify, toNat_sub_one_add_one hd, toNat_sub_one_add_one (by omega),
    updateSlots]

/-- What `raid_tocache_recovery` does to the slots in the page. -/
theorem raidTocacheRecovery_page (hm : s.raidMetadata = some m) (hd : 1 ≤ d)
    (h : Returns (raidTocacheRecovery cfg d) s () s') :
    s' = { s with page := recoverSlots m d s.page } := by
  rw [raidTocacheRecovery, (metadata_returns hm).bind_iff] at h
  obtain ⟨d', s₁, hdata, h₁⟩ := returns_bind.1 h
  obtain ⟨-, rfl, rfl⟩ := returns_slotSector.1 hdata
  obtain ⟨n, s₂, hlast, h₂⟩ := returns_bind.1 h₁
  obtain ⟨⟨h₀, -⟩, rfl, rfl⟩ := returns_slotSector.1 hlast
  rw [toNat_sub_one_add_one hd, toNat_sub_one_add_one (by omega)] at h₂
  rw [recoverSlots]
  rcases returns_ite.1 h₂ with ⟨ht, h₃⟩ | ⟨ht, h₃⟩
  · obtain ⟨q, s₄, hparity, h₄⟩ := returns_bind.1 h₃
    obtain ⟨⟨hq, -⟩, rfl, rfl⟩ := returns_slotSector.1 hparity
    rw [returns_modify.1 h₄, if_pos ht, Int.toNat_add hq Int.one_nonneg]
    rfl
  · rw [returns_modify.1 h₃, if_neg ht]

/-- Both functions return if the slots lie in the page and the stripe on the disks. -/
theorem CachedStripe.returns (hc : CachedStripe cfg m p) (hfit : cfg.CacheFits) {k : ℕ}
    (hstripe : m.stripe = k) (hk : cfg.OnDisk k) (hm : s.raidMetadata = some m)
    (hd : DataDisk cfg p d) :
    (∀ x, ∃ s', Returns (raidWriteUpdateparityCache cfg d x) s () s') ∧
      ∃ s', Returns (raidTocacheRecovery cfg d) s () s' := by
  obtain ⟨h₁, h₂, hpd⟩ := hd
  have hdn : d ≤ m.numOfDisks := by
    rcases hc.layout with ⟨ht, hnum, -⟩ | ⟨-, hnum⟩
    · have := hc.raid4 ht
      omega
    · omega
  exact ⟨fun x => ⟨_, raidWriteUpdateparityCache_returns hfit hm hk hstripe hc.parityCached hc.pos
    hc.le h₁ h₂ hpd x⟩, _, raidTocacheRecovery_returns hfit hm hc.layout h₁ hdn⟩

/-- **The parity update and the reconstruction are inverse**, for every number of disks and every
parity disk: writes keep the sum of the slots zero and leave the latest data, and whatever the slot
of one data disk is overwritten with, rebuilding it restores all slots.  The functions of the kernel
do to the page what the loops do to the slots, and return if the slots lie in the page and the
stripe on the disks. -/
theorem parity_inverse (hc : CachedStripe cfg m p) :
    (∀ slots, XorZero cfg slots → ∀ ws : List (ℕ × Sector), (∀ w ∈ ws, DataDisk cfg p w.1) →
      XorZero cfg (updateAll p ws slots) ∧
      (∀ d x, latestData ws d = some x → updateAll p ws slots d = x) ∧
      ∀ d, DataDisk cfg p d → ∀ y, recoverSlots m d (update (updateAll p ws slots) d y) =
        updateAll p ws slots) ∧
    (∀ s s' : Machine, ∀ d x, s.raidMetadata = some m → DataDisk cfg p d →
      Returns (raidWriteUpdateparityCache cfg d x) s () s' →
        s'.page = updateSlots p d x s.page ∧ s'.raidMetadata = some m) ∧
    (∀ s s' : Machine, ∀ d, s.raidMetadata = some m → DataDisk cfg p d →
      Returns (raidTocacheRecovery cfg d) s () s' →
        s' = { s with page := recoverSlots m d s.page }) ∧
    (cfg.CacheFits → ∀ k : ℕ, m.stripe = k → cfg.OnDisk k →
      ∀ s : Machine, s.raidMetadata = some m → ∀ d, DataDisk cfg p d →
        (∀ x, ∃ s', Returns (raidWriteUpdateparityCache cfg d x) s () s') ∧
        ∃ s', Returns (raidTocacheRecovery cfg d) s () s') := by
  refine ⟨?_, ?_, ?_, ?_⟩
  · intro slots hz ws hws
    have hall := hz.updateAll hc hws
    exact ⟨hall, fun d x hx => updateAll_latest hws hx, fun d hd y => hall.recoverSlots hc hd y⟩
  · intro s s' d x hm hd h
    obtain ⟨hpage, hmeta⟩ := raidWriteUpdateparityCache_page hm hc.parityCached hd.1 h
    exact ⟨hpage, hmeta.trans hm⟩
  · intro s s' d hm hd h
    exact raidTocacheRecovery_page hm hd.1 h
  · intro hfit k hstripe hk s hm d hd
    exact hc.returns hfit hstripe hk hm hd

/-- A `RAID5` array of twenty disks while a stripe is cached whose parity disk is disk `7`. -/
def cachedTwenty : Raid := cachedMeta (freshMeta (smallConfig 20) .RAID5) 14 7

theorem cachedStripe_twenty : CachedStripe (smallConfig 20) cachedTwenty 7 :=
  ⟨.inr ⟨rfl, rfl⟩, rfl, by decide, by decide, by decide⟩

/-- A `RAID4` array of five disks while a stripe is cached, and the machine. -/
def cachedFive : Raid := cachedMeta (freshMeta (smallConfig 5) .RAID4) 2 5

def machineFive : Machine := { blankMachine with raidMetadata := some cachedFive }

theorem cachedStripe_five : CachedStripe (smallConfig 5) cachedFive 5 :=
  ⟨.inl ⟨rfl, rfl, rfl⟩, rfl, by decide, by decide, fun _ => rfl⟩

/-- Twenty slots can be rebuilt, though only seven fit into the page; with five disks both functions
return. -/
theorem parity_inverse_twenty : CachedStripe (smallConfig 20) cachedTwenty 7 ∧
    (∀ x y : Sector, recoverSlots cachedTwenty 3 (update (updateSlots 7 3 x 0) 3 y) =
      updateSlots 7 3 x 0) ∧
    CachedStripe (smallConfig 5) cachedFive 5 ∧
    ∀ x, (∃ s, Returns (raidWriteUpdateparityCache (smallConfig 5) 2 x) machineFive () s) ∧
      ∃ s, Returns (raidTocacheRecovery (smallConfig 5) 2) machineFive () s := by
  refine ⟨cachedStripe_twenty, fun x y => ?_, cachedStripe_five, fun x => ?_⟩
  · have hzero : XorZero (smallConfig 20) 0 := Finset.sum_const_zero
    have hthree : DataDisk (smallConfig 20) 7 3 := ⟨by decide, by decide, by decide⟩
    exact ((parity_inverse cachedStripe_twenty).1 0 hzero [(3, x)] (by simpa using hthree)).2.2 3
      hthree y
  · have htwo : DataDisk (smallConfig 5) 5 2 := ⟨by decide, by decide, by decide⟩
    obtain ⟨hwrite, hrecover⟩ :=
      (parity_inverse cachedStripe_five).2.2.2 (by decide) 2 rfl (by decide) machineFive rfl 2 htwo
    exact ⟨hwrite x, hrecover⟩

end RaidSystem
