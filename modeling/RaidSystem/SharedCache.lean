/-
**What the pieces of a call do.**

The pieces of a call on a parity array without a dead disk, one at a time: what they do to the slots
and to the disks, and which transfer comes next.  Each lemma has the form of those in
`RaidSystem/StripeCache.lean`, which are about whole calls.

* `callOf`, `frameOf` — an access to a block, and the local variables of its call;
* `enter_accepted` — an accepted access goes to its stripe;
* `returns_load`, `returns_store` — the two transfers;
* `AllAlive` — no disk is dead;
* `storeData_returns`, …, `enterStripe_miss_returns` — the pieces between transfers.
-/

import RaidSystem.Interleaving
import RaidSystem.ParityArray

set_option autoImplicit false

namespace RaidSystem.Concurrent

open Prog Finset

/-! ### Accesses -/

/-- Reading or writing block `b`. -/
def callOf (write : Bool) (b : ℕ) (buf : Block) : Call :=
  if write then .writeRaid b (some buf) else .readRaid b (some buf)

/-- The local variables of an access to block `b` of an array of type `t`. -/
def frameOf (cfg : Config) (t : RaidType) (write : Bool) (b : ℕ) (buf : Block) : Frame where
  write := write
  diskn := dataDiskOf t cfg.disks b
  stripe := stripeOf cfg.disks b
  parityDisk := parityOf t cfg.disks (stripeOf cfg.disks b) - 1
  paddrData := buf

variable {cfg : Config} {t : RaidType} {s s' : Machine} {m : Raid} {f : Frame} {g : Progress}
  {write : Bool} {b d p k : ℕ} {buf : Block}

/-- An accepted access goes to its stripe. -/
theorem enter_accepted (hc : ParityConfig cfg t) (hm : s.raidMetadata = some m)
    (hs : ParityMeta cfg t none m) (hb : m.Accepts b) :
    Returns (enter cfg (callOf write b buf)) s g s' ↔
      Returns (enterStripe cfg (frameOf cfg t write b buf)) s g s' := by
  have hn := hc.disks
  have henter : enter cfg (callOf write b buf) = enterAccess cfg write b (some buf) := by
    cases write with
    | false => rfl
    | true => rfl
  have hmeta := metadata_returns hm
  have hemit : ∀ w : Access, Returns (emit w : Kernel Unit) s () s := fun w => returns_emit.2 rfl
  rw [henter, enterAccess, get_returns.bind_iff]
  simp only [hm, hb, if_true, Int.toNat_natCast]
  rcases hc.type with rfl | rfl
  · have hnum : m.numOfDisks = cfg.disks - 1 := hs.numOfDisks
    have hdiv : Returns (divisor m.numOfDisks) s () s := returns_divisor.2 ⟨by omega, rfl⟩
    rw [hs.type, enterRaidRw, (hemit _).bind_iff, enterRaid4, hmeta.bind_iff,
      if_neg hs.not_maxDeadDisks_le, hdiv.bind_iff, hs.parityDisk rfl, hnum, readRaid4Addr_eq,
      writeRaid4Addr_eq, ite_self]
    simp [frameOf, parityOf]
  · have hnum : m.numOfDisks = cfg.disks := hs.numOfDisks
    have hdiv₁ : Returns (divisor (m.numOfDisks - 1)) s () s := returns_divisor.2 ⟨by omega, rfl⟩
    have hdiv₂ : Returns (divisor m.numOfDisks) s () s := returns_divisor.2 ⟨by omega, rfl⟩
    rw [hs.type, enterRaidRw, (hemit _).bind_iff, enterRaid5, hmeta.bind_iff,
      if_neg hs.not_maxDeadDisks_le, hdiv₁.bind_iff, hdiv₂.bind_iff, hnum, readRaid5Addr_eq,
      writeRaid5Addr_eq, ite_self]
    rfl

/-! ### Transfers -/

/-- Loading the slot of disk `d`. -/
theorem returns_load (hfit : cfg.CacheFits) (h₁ : 1 ≤ d) (h₂ : d ≤ cfg.disks) {u : Unit} :
    Returns (Transfer.run cfg (.read d k (d - 1))) s u s' ↔ cfg.OnDisk k ∧
      s' = { s with page := spill s.page d (s.disk d (2 * k), s.disk d (2 * k + 1)) } := by
  have hslot := slot_fits hfit h₁ h₂
  rw [toNat_sub_one_add_one h₁] at hslot
  simp only [Transfer.run, returns_bind, returns_readBlock, returns_loadSlot,
    toNat_sub_one_add_one h₁, Int.toNat_natCast, and_iff_right hslot]
  constructor
  · rintro ⟨_, _, ⟨-, hk, rfl, rfl⟩, rfl⟩
    exact ⟨hk, rfl⟩
  · rintro ⟨hk, rfl⟩
    exact ⟨_, _, ⟨⟨by omega, by omega⟩, hk, rfl, rfl⟩, rfl⟩

/-- Writing the slot of disk `d` to the disk. -/
theorem returns_store (hfit : cfg.CacheFits) (h₁ : 1 ≤ d) (h₂ : d ≤ cfg.disks) {u : Unit} :
    Returns (Transfer.run cfg (.write d k (d - 1))) s u s' ↔ cfg.OnDisk k ∧
      s' = s.setBlock d k (s.page d, s.page (d + 1)) := by
  have hslot := slot_fits hfit h₁ h₂
  rw [toNat_sub_one_add_one h₁] at hslot
  simp only [Transfer.run, returns_bind, returns_writeBlock, returns_storeSlot,
    toNat_sub_one_add_one h₁, Int.toNat_natCast, and_iff_right hslot]
  constructor
  · rintro ⟨_, _, ⟨rfl, rfl⟩, -, hk, rfl⟩
    exact ⟨hk, rfl⟩
  · rintro ⟨hk, rfl⟩
    exact ⟨_, _, ⟨rfl, rfl⟩, ⟨by omega, by omega⟩, hk, rfl⟩

/-! ### Between transfers -/

/-- No disk is dead. -/
def AllAlive (cfg : Config) (m : Raid) : Prop := ∀ d, 1 ≤ d → d ≤ cfg.disks → ¬ m.Dead d

theorem allAlive_of_parityMeta (hs : ParityMeta cfg t none m) : AllAlive cfg m := by
  intro d h₁ h₂
  simp [hs.dead_iff d h₁ h₂]

section Pieces

variable (hm : s.raidMetadata = some m) (hs : AllAlive cfg m)

include hm hs

theorem alive_returns (h₁ : 1 ≤ d) (h₂ : d ≤ cfg.disks) : Returns (dead cfg (d - 1)) s false s :=
  (returns_dead_disk h₁ h₂).2 ⟨rfl, m, hm, by simp [hs d h₁ h₂]⟩

theorem storeData_returns (h₁ : 1 ≤ f.diskn) (h₂ : f.diskn ≤ cfg.disks) (hk : m.stripe = k) :
    Returns (storeData cfg f) s (.inside (.before f (.write f.diskn k (f.diskn - 1)) .stored))
      s := by
  rw [storeData, (alive_returns hm hs h₁ h₂).bind_iff, if_neg (by simp),
    (metadata_returns hm).bind_iff, hk]
  exact returns_pure.2 ⟨rfl, rfl⟩

theorem syncParity_returns (hp₁ : 1 ≤ p) (hp₂ : p ≤ cfg.disks) (hk : m.stripe = k)
    (hp : m.parityCached = p - 1) : Returns (syncParity cfg f) s
      (.inside (.before f (.write p k (p - 1)) .synced)) s := by
  rw [syncParity, (metadata_returns hm).bind_iff, hp, (alive_returns hm hs hp₁ hp₂).bind_iff,
    if_neg (by simp), hk, sub_add_cancel]
  exact returns_pure.2 ⟨rfl, rfl⟩

theorem updateParity_returns (hfit : cfg.CacheFits) (h₁ : 1 ≤ f.diskn) (h₂ : f.diskn ≤ cfg.disks)
    (hp₁ : 1 ≤ p) (hp₂ : p ≤ cfg.disks) (hdp : f.diskn ≠ p) (hk : m.stripe = k)
    (hp : m.parityCached = p - 1) :
    Returns (updateParity cfg f) s (.inside (.before f (.write p k (p - 1)) .synced))
      { s with page := updatedPage s.page p f.diskn f.paddrData.1 } := by
  rw [updateParity, (metadata_returns hm).bind_iff, hp,
    (slotSector_returns hfit hp₁ hp₂).bind_iff, (slotSector_returns hfit h₁ h₂).bind_iff,
    modify_returns.bind_iff, forBytes_updateByte hdp]
  exact syncParity_returns (m := m) hm hs hp₁ hp₂ hk hp

/-- No slot has to be rebuilt. -/
theorem skipRebuild_returns (h₁ : 1 ≤ d) (h₂ : d ≤ cfg.disks) :
    Returns (ifTrue (dead cfg (d - 1)) (raidTocacheRecovery cfg d)) s () s :=
  (alive_returns hm hs h₁ h₂).ifTrue_iff.2 (.inr ⟨rfl, rfl⟩)

theorem readSlot_returns (hfit : cfg.CacheFits) (h₁ : 1 ≤ f.diskn) (h₂ : f.diskn ≤ cfg.disks) :
    Returns (readSlot cfg f) s
      (.returned { code := 0, data := some (s.page f.diskn, f.paddrData.2) }) s := by
  rw [readSlot, (skipRebuild_returns hm hs h₁ h₂).bind_iff, copyOut]
  simp only [returns_bind, returns_get, returns_pure]
  exact ⟨_, s, ⟨_, s, slotSector_returns hfit h₁ h₂, _, s, ⟨rfl, rfl⟩, rfl, rfl⟩, rfl, rfl⟩

/-- What an access does once its stripe is in the cache. -/
theorem returns_afterCache (h₁ : 1 ≤ f.diskn) (h₂ : f.diskn ≤ cfg.disks) :
    Returns (afterCache cfg f) s g s' ↔
      Returns (if f.write then updateParity cfg f else readSlot cfg f) s g s' := by
  cases hw : f.write with
  | false => simp [afterCache, hw]
  | true =>
    simp only [afterCache, hw, if_true]
    exact (skipRebuild_returns hm hs h₁ h₂).bind_iff

theorem cacheParity_returns (hp₁ : 1 ≤ p) (hp₂ : p ≤ cfg.disks) (hf : f.parityDisk = p - 1) :
    Returns (cacheParity cfg f) s (.inside (.before f (.read p f.stripe (p - 1)) .cached))
      (s.withMeta { m with parityCached := p - 1, parityDisk := p - 1 }) := by
  have hset := (returns_setMetadata (u := ())
    (f := fun m => { m with parityCached := f.parityDisk, parityDisk := f.parityDisk })).2
    ⟨m, hm, rfl⟩
  have hs' : AllAlive cfg { m with parityCached := p - 1, parityDisk := p - 1 } := hs
  rw [cacheParity, hset.bind_iff, (metadata_returns rfl).bind_iff, hf,
    (alive_returns rfl hs' hp₁ hp₂).bind_iff, if_neg (by simp), sub_add_cancel]
  exact returns_pure.2 ⟨rfl, rfl⟩

theorem cacheLoop_returns {i n : ℕ} (hi₁ : 1 ≤ i) (hi₂ : i ≤ cfg.disks) :
    Returns (cacheLoop cfg f i (n + 1)) s
      (.inside (.before f (.read i f.stripe (i - 1)) (.loop i))) s := by
  rw [cacheLoop, (alive_returns hm hs hi₁ hi₂).bind_iff, if_neg (by simp)]
  exact returns_pure.2 ⟨rfl, rfl⟩

omit hs in
theorem returns_enterStripe_hit (hhit : m.stripe = f.stripe) : Returns (enterStripe cfg f) s g s' ↔
    Returns (if f.write then updateParity cfg f else readSlot cfg f) s g s' := by
  rw [enterStripe, (metadata_returns hm).bind_iff, if_pos hhit]

theorem enterStripe_miss_returns (hmiss : m.stripe ≠ f.stripe) (hn : 1 ≤ m.numOfDisks)
    (hdisks : 1 ≤ cfg.disks) : Returns (enterStripe cfg f) s
      (.inside (.before f (.read (1 : ℕ) f.stripe ((1 : ℕ) - 1)) (.loop 1)))
      (s.withMeta { m with stripe := f.stripe }) := by
  have hset := (returns_setMetadata (u := ()) (f := fun m => { m with stripe := f.stripe })).2
    ⟨m, hm, rfl⟩
  have hs' : AllAlive cfg { m with stripe := f.stripe } := hs
  have hloop := cacheLoop_returns (f := f) (n := m.numOfDisks - 1)
    (s := s.withMeta { m with stripe := f.stripe }) rfl hs' le_rfl hdisks
  rw [Nat.sub_add_cancel hn] at hloop
  rw [enterStripe, (metadata_returns hm).bind_iff, if_neg hmiss, hset.bind_iff,
    (metadata_returns rfl).bind_iff]
  exact hloop

end Pieces

/-! ### Disks that lag behind -/

/-- The machine holds the contents `L`, but of the cached stripe the disks in `owed` may lag behind
their slots, and if `spill` holds, the second half of the parity block may. -/
structure Lags (cfg : Config) (t : RaidType) (L : ℕ → ℕ → Sector) (s : Machine) (m : Raid)
    (owed : ℕ → Prop) (spill : Prop) : Prop where
  raidMetadata : s.raidMetadata = some m
  shape : ParityMeta cfg t none m
  disk : ∀ e k : ℕ, 1 ≤ e → e ≤ cfg.disks → 1 ≤ k → (m.stripe = k → ¬ owed e) →
    s.disk e (2 * k) = L e k
  spilled : ∀ k : ℕ, 1 ≤ k → parityOf t cfg.disks k < cfg.disks → (m.stripe = k → ¬ spill) →
    s.disk (parityOf t cfg.disks k) (2 * k + 1) = L (parityOf t cfg.disks k + 1) k
  slots : ∀ k : ℕ, m.stripe = k → ∀ e, 1 ≤ e → e ≤ cfg.disks → s.page e = L e k

namespace Lags

variable {L : ℕ → ℕ → Sector} {owed owed' : ℕ → Prop} {spill spill' : Prop}

theorem mono (h : Lags cfg t L s m owed spill) (howed : ∀ e, owed e → owed' e)
    (hspill : spill → spill') : Lags cfg t L s m owed' spill' := by
  refine ⟨h.raidMetadata, h.shape, ?_, ?_, h.slots⟩
  · intro e k h₁ h₂ hk hnot
    exact h.disk e k h₁ h₂ hk fun hst ho => hnot hst (howed e ho)
  · intro k hk hlt hnot
    exact h.spilled k hk hlt fun hst hsp => hnot hst (hspill hsp)

/-- Nothing lags behind. -/
theorem holds (h : Lags cfg t L s m owed spill) (howed : ∀ e, ¬ owed e) (hspill : ¬ spill)
    (hsum : ∀ k, 1 ≤ k → ∑ d ∈ Icc 1 cfg.disks, L d k = 0) : Holds cfg t none L s m := by
  refine ⟨h.raidMetadata, h.shape, hsum, ?_, ?_, ?_⟩
  · intro e k h₁ h₂ hk _
    exact h.disk e k h₁ h₂ hk fun _ => howed e
  · intro k hk hlt _
    exact h.spilled k hk hlt fun _ => hspill
  · intro k hk e h₁ h₂ _
    exact h.slots k hk e h₁ h₂

theorem of_holds (h : Holds cfg t none L s m) : Lags cfg t L s m owed spill := by
  refine ⟨h.raidMetadata, h.shape, ?_, ?_, ?_⟩
  · intro e k h₁ h₂ hk _
    exact h.disk e k h₁ h₂ hk (by simp)
  · intro k hk hlt _
    exact h.spilled k hk hlt (by simp)
  · intro k hk e h₁ h₂
    exact h.slots k hk e h₁ h₂ (.inl (by simp))

variable (h : Lags cfg t L s m owed spill) (hk : m.stripe = k)

include h hk

/-- Writing the slots changes the contents as a write should, and two disks lag behind. -/
theorem update (hc : ParityConfig cfg t) (h₁ : 1 ≤ d) (h₂ : d ≤ cfg.disks)
    (hdp : d ≠ parityOf t cfg.disks k) (x : Sector) :
    Lags cfg t (storeContents L (parityOf t cfg.disks k) d k x)
      { s with page := updatedPage s.page (parityOf t cfg.disks k) d x } m
      (fun e => owed e ∨ e = d ∨ e = parityOf t cfg.disks k) True := by
  obtain ⟨hp₁, hp₂⟩ := hc.parityOf_mem k
  have hcases : ∀ j : ℕ, m.stripe = j → j = k := fun j hj => Int.ofNat_inj.1 (hj.symm.trans hk)
  refine ⟨h.raidMetadata, h.shape, ?_, ?_, ?_⟩
  · intro e j he₁ he₂ hj hnot
    rcases eq_or_ne j k with rfl | hjk
    · have hnot' := hnot hk
      have hed : e ≠ d := fun he => hnot' (.inr (.inl he))
      have hep : e ≠ parityOf t cfg.disks j := fun he => hnot' (.inr (.inr he))
      rw [storeContents_stripe, updatedPage_of_ne hep hed]
      exact h.disk e j he₁ he₂ hj fun _ ho => hnot' (.inl ho)
    · rw [storeContents_of_ne hjk]
      exact h.disk e j he₁ he₂ hj fun hst => absurd (hcases j hst) hjk
  · intro j hj hlt hnot
    rcases eq_or_ne j k with rfl | hjk
    · exact absurd trivial (hnot hk)
    · rw [storeContents_of_ne hjk]
      exact h.spilled j hj hlt fun hst => absurd (hcases j hst) hjk
  · intro j hj e he₁ he₂
    obtain rfl := hcases j hj
    -- the slots hold the old contents
    have hslot : ∀ e, 1 ≤ e → e ≤ cfg.disks → s.page e = L e j := h.slots j hj
    dsimp only
    rw [storeContents_stripe]
    rcases eq_or_ne e (parityOf t cfg.disks j) with rfl | hep
    · rw [updatedPage_parity, updatedPage_parity, hslot _ hp₁ hp₂, hslot d h₁ h₂]
    rcases eq_or_ne e d with rfl | hed
    · rw [updatedPage_data hdp, updatedPage_data hdp]
    · rw [updatedPage_of_ne hep hed, updatedPage_of_ne hep hed, hslot e he₁ he₂]

/-- A disk whose slot is written to it catches up. -/
theorem disk_setBlock (h₁ : 1 ≤ d) (h₂ : d ≤ cfg.disks) {e j : ℕ} (he₁ : 1 ≤ e)
    (he₂ : e ≤ cfg.disks) (hj : 1 ≤ j) (hnot : m.stripe = j → ¬ (owed e ∧ e ≠ d)) :
    (s.setBlock d k (s.page d, s.page (d + 1))).disk e (2 * j) = L e j := by
  rw [setBlock_disk_fst]
  split
  case isTrue hej =>
    rw [hej.1, hej.2]
    exact h.slots k hk d h₁ h₂
  case isFalse hej =>
    refine h.disk e j he₁ he₂ hj fun hst ho => hnot hst ⟨ho, fun he => hej ⟨he, ?_⟩⟩
    exact Int.ofNat_inj.1 (hst.symm.trans hk)

/-- Writing the slot of the parity disk to the disk. -/
theorem storeParity (hc : ParityConfig cfg t) :
    Lags cfg t L (s.setBlock (parityOf t cfg.disks k) k
        (s.page (parityOf t cfg.disks k), s.page (parityOf t cfg.disks k + 1))) m
      (fun e => owed e ∧ e ≠ parityOf t cfg.disks k) False := by
  obtain ⟨hp₁, hp₂⟩ := hc.parityOf_mem k
  refine ⟨h.raidMetadata, h.shape, ?_, ?_, h.slots⟩
  · intro e j he₁ he₂ hj hnot
    exact h.disk_setBlock hk hp₁ hp₂ he₁ he₂ hj hnot
  · intro j hj hlt _
    rw [setBlock_disk_snd]
    split
    case isTrue hej =>
      obtain rfl := hej.2
      exact h.slots j hk _ (by omega) (by omega)
    case isFalse hej =>
      refine h.spilled j hj hlt fun hst => absurd ?_ hej
      obtain rfl : j = k := Int.ofNat_inj.1 (hst.symm.trans hk)
      exact ⟨rfl, rfl⟩

/-- Writing the slot of a data disk to the disk. -/
theorem storeData (h₁ : 1 ≤ d) (h₂ : d ≤ cfg.disks) (hdp : d ≠ parityOf t cfg.disks k) :
    Lags cfg t L (s.setBlock d k (s.page d, s.page (d + 1))) m (fun e => owed e ∧ e ≠ d) spill := by
  refine ⟨h.raidMetadata, h.shape, ?_, ?_, h.slots⟩
  · intro e j he₁ he₂ hj hnot
    exact h.disk_setBlock hk h₁ h₂ he₁ he₂ hj hnot
  · intro j hj hlt hnot
    rw [setBlock_disk_snd, if_neg ?_]
    · exact h.spilled j hj hlt hnot
    · rintro ⟨hpd, rfl⟩
      exact hdp hpd.symm

end Lags

/-! ### Loading a stripe, disk by disk -/

/-- The machine holds the contents `L` on its disks, and the slots of the disks before `i` hold
stripe `k`; `m` are the metadata as they were before the call. -/
structure LoadedTo (cfg : Config) (t : RaidType) (L : ℕ → ℕ → Sector) (s : Machine) (m : Raid)
    (k i : ℕ) : Prop where
  shape : ParityMeta cfg t none m
  disk : ∀ e j, 1 ≤ e → e ≤ cfg.disks → 1 ≤ j → s.disk e (2 * j) = L e j
  spilled : ∀ j, 1 ≤ j → parityOf t cfg.disks j < cfg.disks →
    s.disk (parityOf t cfg.disks j) (2 * j + 1) = L (parityOf t cfg.disks j + 1) j
  slots : ∀ e, 1 ≤ e → e < i → s.page e = L e k

namespace LoadedTo

variable {L : ℕ → ℕ → Sector} {i : ℕ}

/-- Loading starts with nothing. -/
theorem start (h : Holds cfg t none L s m) (k : ℕ) (m' : Raid) :
    LoadedTo cfg t L (s.withMeta m') m k 1 := by
  refine ⟨h.shape, ?_, ?_, ?_⟩
  · intro e j h₁ h₂ hj
    exact h.disk e j h₁ h₂ hj (by simp)
  · intro j hj hlt
    exact h.spilled j hj hlt (by simp)
  · intro e h₁ h₂
    omega

/-- The metadata of the machine do not matter. -/
theorem withMetadata (h : LoadedTo cfg t L s m k i) (x : Option Raid) :
    LoadedTo cfg t L { s with raidMetadata := x } m k i :=
  ⟨h.shape, h.disk, h.spilled, h.slots⟩

/-- One more disk. -/
theorem load (h : LoadedTo cfg t L s m k i) (hi₁ : 1 ≤ i) (hi₂ : i ≤ cfg.disks) (hk : 1 ≤ k) :
    LoadedTo cfg t L { s with page := spill s.page i (s.disk i (2 * k), s.disk i (2 * k + 1)) } m k
      (i + 1) := by
  refine ⟨h.shape, h.disk, h.spilled, ?_⟩
  intro e h₁ h₂
  dsimp only
  rcases eq_or_ne e i with rfl | he
  · rw [spill_self]
    exact h.disk e k hi₁ hi₂ hk
  · rw [spill_of_ne he (by omega)]
    exact h.slots e h₁ (by omega)

/-- The parity block comes last, and brings the slot after it with it. -/
theorem loadParity (h : LoadedTo cfg t L s m k (m.numOfDisks + 1)) (hc : ParityConfig cfg t)
    (hk₁ : 1 ≤ k) (hk : cfg.OnDisk k)
    (hm : s.raidMetadata = some (cachedMeta m k (parityOf t cfg.disks k))) :
    Lags cfg t L
      { s with
        page := spill s.page (parityOf t cfg.disks k)
          (s.disk (parityOf t cfg.disks k) (2 * k), s.disk (parityOf t cfg.disks k) (2 * k + 1)) }
      (cachedMeta m k (parityOf t cfg.disks k)) (fun _ => False) False := by
  obtain ⟨hp₁, hp₂⟩ := hc.parityOf_mem k
  refine ⟨hm, h.shape.cachedMeta hc hk₁ hk, ?_, ?_, ?_⟩
  · intro e j h₁ h₂ hj _
    exact h.disk e j h₁ h₂ hj
  · intro j hj hlt _
    exact h.spilled j hj hlt
  · intro k' hk' e h₁ h₂
    obtain rfl : k = k' := Int.ofNat_inj.1 hk'
    dsimp only
    rcases eq_or_ne e (parityOf t cfg.disks k) with rfl | hep
    · rw [spill_self]
      exact h.disk _ k hp₁ hp₂ hk₁
    rcases eq_or_ne e (parityOf t cfg.disks k + 1) with rfl | hep'
    · rw [spill_succ]
      exact h.spilled k hk₁ (by omega)
    · rw [spill_of_ne hep hep']
      have hloop : e ≤ m.numOfDisks := h.shape.numOfDisks ▸ hc.le_numOfDisks h₂ hep
      exact h.slots e h₁ (by omega)

end LoadedTo

end RaidSystem.Concurrent
