/-
**A parity array holds its contents.**

The abstract view of a `RAID4` or `RAID5` array is a table of contents: for every disk and every
stripe the 512 bytes that belong there, such that the contents of a stripe add up to zero.
`Holds cfg t f L s m` says that the machine `s` holds the contents `L` although disk `f` may have
failed: the disks that are not dead have them, and so have the cache slots that matter.

Two parts of the invariant are about the 512 bytes that a transfer moves too much.  Loading the
parity block of a stripe overwrites the slot of the disk after the parity disk, so the second half
of that block has to repeat the contents of that disk (`Holds.spilled`); and for the same reason
the slot after the parity disk is right even when its disk is dead (`Holds.slots`).

Main definitions:

* `ParityConfig` — the arrays considered: at least two disks, and a cache that fits its page;
* `ParityMeta` — what the metadata of such an array look like, when disk `f` has failed;
* `Holds` — the machine holds the contents `L`;
* `storeContents` — the contents after a write.

Main results:

* `Holds.cache`, `Holds.rebuilt`, `Holds.written` — the helpers keep the contents, or change them
  as a write should;
* `Holds.readStripe`, `Holds.writeStripe` — **a read delivers the contents, a write stores them**,
  where a write that hits the slot of a dead disk needs the slot to be up to date.
-/

import RaidSystem.Accesses
import RaidSystem.StripeCache

set_option autoImplicit false

namespace RaidSystem

open Prog Finset

/-! ### Shape -/

/-- The parity arrays considered. -/
structure ParityConfig (cfg : Config) (t : RaidType) : Prop where
  type : t = .RAID4 ∨ t = .RAID5
  disks : 2 ≤ cfg.disks
  fits : cfg.CacheFits

/-- The metadata of a parity array in which disk `f`, and no other, has failed. -/
structure ParityMeta (cfg : Config) (t : RaidType) (f : Option ℕ) (m : Raid) : Prop where
  raidInitialized : m.raidInitialized = true
  type : m.type = t
  numOfDisks : m.numOfDisks = numOfDisksOf t cfg.disks
  maxBlocks : m.maxBlocks = capacity cfg cfg.disks
  maxDeadDisks : m.maxDeadDisks = 2
  parityDisk : t = .RAID4 → m.parityDisk = cfg.disks - 1
  dead_iff : ∀ d, 1 ≤ d → d ≤ cfg.disks → (m.Dead d ↔ f = some d)
  failed : ∀ d, f = some d → 1 ≤ d ∧ d ≤ cfg.disks
  numDeadDisks : m.numDeadDisks = if f.isSome then 1 else 0
  cached : ∀ k : ℕ, m.stripe = k →
    1 ≤ k ∧ cfg.OnDisk k ∧ m.parityCached = parityOf t cfg.disks k - 1

section Shape

variable {cfg : Config} {t : RaidType} {f : Option ℕ} {m : Raid} {d k : ℕ}

theorem ParityConfig.parityOf_mem (hc : ParityConfig cfg t) (k : ℕ) :
    1 ≤ parityOf t cfg.disks k ∧ parityOf t cfg.disks k ≤ cfg.disks :=
  RaidSystem.parityOf_mem (by have := hc.disks; omega) k

theorem ParityConfig.numOfDisks_le (hc : ParityConfig cfg t) :
    numOfDisksOf t cfg.disks ≤ cfg.disks := by
  rcases hc.type with rfl | rfl <;> simp [numOfDisksOf]

/-- A disk is a data disk of the loop of `cache`, or the parity disk. -/
theorem ParityConfig.le_numOfDisks (hc : ParityConfig cfg t) (h₂ : d ≤ cfg.disks)
    (hp : d ≠ parityOf t cfg.disks k) : d ≤ numOfDisksOf t cfg.disks := by
  rcases hc.type with rfl | rfl
  · simp only [parityOf, numOfDisksOf] at hp ⊢
    simp at hp
    omega
  · exact h₂

theorem ParityMeta.layout (hs : ParityMeta cfg t f m) (hc : ParityConfig cfg t) :
    ParityLayout cfg m := by
  have hn := hc.disks
  rcases hc.type with rfl | rfl
  · refine .inl ⟨hs.type, ?_, hs.parityDisk rfl⟩
    rw [hs.numOfDisks, numOfDisksOf]
    omega
  · exact .inr ⟨hs.type, hs.numOfDisks⟩

/-- The parity disk that an access to stripe `k` passes to `cache`. -/
theorem ParityMeta.cachedMeta (hs : ParityMeta cfg t f m) (hc : ParityConfig cfg t) (hk₁ : 1 ≤ k)
    (hk : cfg.OnDisk k) : ParityMeta cfg t f (cachedMeta m k (parityOf t cfg.disks k)) := by
  refine { hs with parityDisk := ?_, cached := ?_ }
  · rintro rfl
    simp [RaidSystem.cachedMeta, parityOf]
  · intro k' hk'
    have hkk : k = k' := Int.ofNat_inj.1 hk'
    exact hkk ▸ ⟨hk₁, hk, rfl⟩

/-- The slot of disk `d` has to be up to date while stripe `k` is cached. -/
def Covered (cfg : Config) (t : RaidType) (f : Option ℕ) (k d : ℕ) : Prop :=
  f ≠ some d ∨ d = parityOf t cfg.disks k + 1 ∧ f ≠ some (parityOf t cfg.disks k)

/-- What loading stripe `k`, with parity disk `p`, puts into the slot of disk `d`. -/
def loadedSlot (m : Raid) (s : Machine) (k p d : ℕ) : Sector :=
  if d = p + 1 ∧ ¬ m.Dead p then s.disk p (2 * k + 1) else s.disk d (2 * k)

theorem ParityMeta.cache_returns {s : Machine} (hs : ParityMeta cfg t f m) (hc : ParityConfig cfg t)
    (hm : s.raidMetadata = some m) (hk : cfg.OnDisk k) :
    ∃ page, Returns (cache cfg k (parityOf t cfg.disks k - 1)) s ()
        { s with raidMetadata := some (RaidSystem.cachedMeta m k (parityOf t cfg.disks k)),
                 page := page } ∧
      ∀ d, 1 ≤ d → d ≤ cfg.disks → Covered cfg t f k d →
        page d = loadedSlot m s k (parityOf t cfg.disks k) d := by
  obtain ⟨hp₁, hp₂⟩ := hc.parityOf_mem k
  have hnum : m.numOfDisks ≤ cfg.disks := hs.numOfDisks ▸ hc.numOfDisks_le
  have hload : ∀ d, 1 ≤ d → d ≤ m.numOfDisks ∨ d = parityOf t cfg.disks k → ¬ m.Dead d →
      Loadable cfg k d := fun d _ h₂ _ => hc.fits.loadable hk (by omega)
  obtain ⟨page, hr, hpage, hspill, -⟩ := RaidSystem.cache_returns hm hnum hp₁ hp₂ hload
  refine ⟨page, hr, ?_⟩
  intro d h₁ h₂ hcov
  rw [loadedSlot]
  split
  case isTrue hsp =>
    -- the slot that the second load of the parity block spills into
    rw [hsp.1]
    exact hspill _ hp₁ (.inl rfl) hsp.2
  case isFalse hsp =>
    have hf : f ≠ some d := hcov.resolve_right fun hcov =>
      hsp ⟨hcov.1, (hs.dead_iff _ hp₁ hp₂).not.2 hcov.2⟩
    have hloop : d ≤ m.numOfDisks ∨ d = parityOf t cfg.disks k := by
      by_cases hdp : d = parityOf t cfg.disks k
      · exact .inr hdp
      · exact .inl (hs.numOfDisks ▸ hc.le_numOfDisks h₂ hdp)
    exact hpage d h₁ hloop ((hs.dead_iff d h₁ h₂).not.2 hf) fun hd => not_not.1
      fun hp => hsp ⟨hd, hp⟩

end Shape

/-! ### Contents -/

/-- The machine holds the contents `L`, with disk `f` failed. -/
structure Holds (cfg : Config) (t : RaidType) (f : Option ℕ) (L : ℕ → ℕ → Sector) (s : Machine)
    (m : Raid) : Prop where
  raidMetadata : s.raidMetadata = some m
  shape : ParityMeta cfg t f m
  sum_eq_zero : ∀ k, 1 ≤ k → ∑ d ∈ Icc 1 cfg.disks, L d k = 0
  disk : ∀ d k, 1 ≤ d → d ≤ cfg.disks → 1 ≤ k → f ≠ some d → s.disk d (2 * k) = L d k
  spilled : ∀ k, 1 ≤ k → parityOf t cfg.disks k < cfg.disks → f ≠ some (parityOf t cfg.disks k) →
    s.disk (parityOf t cfg.disks k) (2 * k + 1) = L (parityOf t cfg.disks k + 1) k
  slots : ∀ k : ℕ, m.stripe = k → ∀ d, 1 ≤ d → d ≤ cfg.disks → Covered cfg t f k d →
    s.page d = L d k

/-- The contents after `x` was written to disk `d` of stripe `k`, with parity disk `p`. -/
def storeContents (L : ℕ → ℕ → Sector) (p d k : ℕ) (x : Sector) : ℕ → ℕ → Sector :=
  fun e j => if j = k then updatedPage (fun e => L e k) p d x e else L e j

theorem storeContents_of_ne {L : ℕ → ℕ → Sector} {p d k e j : ℕ} {x : Sector} (h : j ≠ k) :
    storeContents L p d k x e j = L e j := by
  simp [storeContents, h]

theorem storeContents_stripe {L : ℕ → ℕ → Sector} {p d k e : ℕ} {x : Sector} :
    storeContents L p d k x e k = updatedPage (fun e => L e k) p d x e := by
  simp [storeContents]

namespace Holds

variable {cfg : Config} {t : RaidType} {f : Option ℕ} {L : ℕ → ℕ → Sector} {s : Machine} {m : Raid}
  {d k : ℕ}

/-- Loading a stripe keeps the contents. -/
theorem cache (h : Holds cfg t f L s m) (hc : ParityConfig cfg t) (hk₁ : 1 ≤ k)
    (hk : cfg.OnDisk k) :
    ∃ s', Returns (RaidSystem.cache cfg k (parityOf t cfg.disks k - 1)) s () s' ∧
      Holds cfg t f L s' (cachedMeta m k (parityOf t cfg.disks k)) := by
  obtain ⟨hp₁, hp₂⟩ := hc.parityOf_mem k
  obtain ⟨page, hr, hpage⟩ := h.shape.cache_returns hc h.raidMetadata hk
  refine ⟨_, hr, rfl, h.shape.cachedMeta hc hk₁ hk, h.sum_eq_zero, h.disk, h.spilled, ?_⟩
  intro k' hk' d h₁ h₂ hcov
  have hkk : k = k' := Int.ofNat_inj.1 hk'
  subst hkk
  refine (hpage d h₁ h₂ hcov).trans ?_
  rw [loadedSlot]
  split
  case isTrue hsp =>
    obtain ⟨rfl, hlive⟩ := hsp
    exact h.spilled k hk₁ h₂ ((h.shape.dead_iff _ hp₁ hp₂).not.1 hlive)
  case isFalse hsp =>
    have hf : f ≠ some d := hcov.resolve_right fun hcov =>
      hsp ⟨hcov.1, (h.shape.dead_iff _ hp₁ hp₂).not.2 hcov.2⟩
    exact h.disk d k h₁ h₂ hk₁ hf

section

variable (h : Holds cfg t f L s m) (hstripe : m.stripe = k) (h₁ : 1 ≤ d) (h₂ : d ≤ cfg.disks)

include h hstripe h₁ h₂

/-- In the cached stripe the slots of the other disks add up to the contents of a disk that has
failed. -/
theorem sum_slots (hf : f = some d) :
    ∑ e ∈ (Icc 1 cfg.disks).erase d, s.page e = L d k := by
  have hsum := h.sum_eq_zero k (h.shape.cached k hstripe).1
  rw [Parity.eq_sum_erase_of_sum_eq_zero hsum (mem_Icc.2 ⟨h₁, h₂⟩)]
  refine sum_erase_congr fun e he₁ he₂ hed => h.slots k hstripe e he₁ he₂ (.inl ?_)
  rw [hf]
  simpa using hed.symm

/-- The slot of a disk after it was rebuilt, in case its disk is dead. -/
theorem rebuiltPage_self : rebuiltPage cfg m s.page d d = L d k := by
  by_cases hd : m.Dead d
  · rw [rebuiltPage_dead hd]
    exact h.sum_slots hstripe h₁ h₂ ((h.shape.dead_iff d h₁ h₂).1 hd)
  · rw [rebuiltPage_live hd]
    exact h.slots k hstripe d h₁ h₂ (.inl ((h.shape.dead_iff d h₁ h₂).not.1 hd))

/-- Rebuilding a slot keeps the contents. -/
theorem rebuilt : Holds cfg t f L { s with page := rebuiltPage cfg m s.page d } m := by
  refine ⟨h.raidMetadata, h.shape, h.sum_eq_zero, h.disk, h.spilled, ?_⟩
  intro k' hk' e he₁ he₂ hcov
  have hkk : k = k' := Int.ofNat_inj.1 (hstripe.symm.trans hk')
  subst hkk
  by_cases hed : e = d
  · rw [hed]
    exact h.rebuiltPage_self hstripe h₁ h₂
  · exact (rebuiltPage_of_ne hed).trans (h.slots k hk' e he₁ he₂ hcov)

end

section

variable (h : Holds cfg t f L s m) (hc : ParityConfig cfg t) (hstripe : m.stripe = k) (h₁ : 1 ≤ d)
  (h₂ : d ≤ cfg.disks) (hp : d ≠ parityOf t cfg.disks k)

include h hc hstripe h₁ h₂ hp

/-- Writing a slot that is right changes the contents as a write should. -/
theorem written (hd : s.page d = L d k) (x : Sector) :
    Holds cfg t f (storeContents L (parityOf t cfg.disks k) d k x)
      (RaidSystem.written m k (parityOf t cfg.disks k) d s x) m := by
  obtain ⟨hp₁, hp₂⟩ := hc.parityOf_mem k
  -- the new slots hold the new contents, wherever the old ones held the old contents
  have hpage : ∀ e, Covered cfg t f k e → 1 ≤ e → e ≤ cfg.disks →
      updatedPage s.page (parityOf t cfg.disks k) d x e =
        storeContents L (parityOf t cfg.disks k) d k x e k := by
    intro e hcov he₁ he₂
    have he := h.slots k hstripe e he₁ he₂ hcov
    rw [storeContents_stripe]
    by_cases hep : e = parityOf t cfg.disks k
    · subst hep
      rw [updatedPage_parity, updatedPage_parity, he, hd]
    · by_cases hed : e = d
      · subst hed
        rw [updatedPage_data hep, updatedPage_data hep]
      · rw [updatedPage_of_ne hep hed, updatedPage_of_ne hep hed, he]
  refine ⟨by simpa using h.raidMetadata, h.shape, ?_, ?_, ?_, ?_⟩
  · intro j hj
    by_cases hjk : j = k
    · subst hjk
      simp only [storeContents_stripe]
      rw [updatedPage, Parity.sum_update_pair _ (mem_Icc.2 ⟨hp₁, hp₂⟩) (mem_Icc.2 ⟨h₁, h₂⟩) hp.symm]
      exact h.sum_eq_zero j hj
    · simp only [storeContents_of_ne hjk]
      exact h.sum_eq_zero j hj
  · intro e j he₁ he₂ hj hf
    have hlive := (h.shape.dead_iff e he₁ he₂).not.2 hf
    by_cases hjk : j = k
    · subst hjk
      rw [← hpage e (.inl hf) he₁ he₂]
      by_cases hed : e = d
      · subst hed
        rw [written_disk_data hp hlive, updatedPage_data hp]
      · by_cases hep : e = parityOf t cfg.disks j
        · subst hep
          rw [written_disk_parity hp hlive, updatedPage_parity]
        · rw [written_disk_other hep hed, updatedPage_of_ne hep hed,
            h.slots j hstripe e he₁ he₂ (.inl hf), h.disk e j he₁ he₂ hj hf]
    · rw [written_disk_of_ne hjk, storeContents_of_ne hjk]
      exact h.disk e j he₁ he₂ hj hf
  · intro j hj hlt hf
    by_cases hjk : j = k
    · subst hjk
      rw [written_spill_parity hp ((h.shape.dead_iff _ hp₁ hp₂).not.2 hf)]
      exact hpage _ (.inr ⟨rfl, hf⟩) (by omega) (by omega)
    · rw [written_spill_of_ne hjk, storeContents_of_ne hjk]
      exact h.spilled j hj hlt hf
  · intro k' hk' e he₁ he₂ hcov
    have hkk : k = k' := Int.ofNat_inj.1 (hstripe.symm.trans hk')
    subst hkk
    simpa using hpage e hcov he₁ he₂

theorem readStripe_hit {q : ℤ} (buf : Block) :
    ∃ s', Returns (RaidSystem.readStripe cfg d k q buf) s (0, (L d k, buf.2)) s' ∧
      Holds cfg t f L s' m := by
  have hnum : d ≤ m.numOfDisks := h.shape.numOfDisks ▸ hc.le_numOfDisks h₂ hp
  refine ⟨_, ?_, h.rebuilt hstripe h₁ h₂⟩
  rw [← h.rebuiltPage_self hstripe h₁ h₂]
  exact RaidSystem.readStripe_hit hc.fits h.raidMetadata (h.shape.layout hc) hstripe h₁ hnum
    buf

theorem writeStripe_hit (hd : s.page d = L d k) {q : ℤ} (buf : Block) :
    ∃ s', Returns (RaidSystem.writeStripe cfg d k q buf) s (0, buf) s' ∧
      Holds cfg t f (storeContents L (parityOf t cfg.disks k) d k buf.1) s' m := by
  obtain ⟨hp₁, hp₂⟩ := hc.parityOf_mem k
  obtain ⟨-, hk, hcached⟩ := h.shape.cached k hstripe
  exact ⟨_, RaidSystem.writeStripe_hit hc.fits h.raidMetadata hk hstripe hcached hp₁ hp₂ h₁ h₂ hp
    buf,
    h.written hc hstripe h₁ h₂ hp hd buf.1⟩

end

section

variable (h : Holds cfg t f L s m) (hc : ParityConfig cfg t) (hk₁ : 1 ≤ k) (hk : cfg.OnDisk k)
  (h₁ : 1 ≤ d) (h₂ : d ≤ cfg.disks) (hp : d ≠ parityOf t cfg.disks k) (buf : Block)

include h hc hk₁ hk h₁ h₂ hp buf

/-- **A read delivers the contents.** -/
theorem readStripe :
    ∃ s' m', Returns (RaidSystem.readStripe cfg d k (parityOf t cfg.disks k - 1) buf) s
      (0, (L d k, buf.2)) s' ∧ Holds cfg t f L s' m' := by
  by_cases hstripe : m.stripe = k
  · obtain ⟨s', hr, hs'⟩ := h.readStripe_hit hc hstripe h₁ h₂ hp buf
    exact ⟨s', m, hr, hs'⟩
  · obtain ⟨s₁, hr₁, hs₁⟩ := h.cache hc hk₁ hk
    obtain ⟨s', hr, hs'⟩ := hs₁.readStripe_hit hc rfl h₁ h₂ hp buf
    exact ⟨s', _, (returns_readStripe_miss h.raidMetadata hstripe hr₁ hs₁.raidMetadata rfl).2 hr,
      hs'⟩

/-- **A write stores the contents**, provided that a write which hits the slot of a dead disk finds
it up to date. -/
theorem writeStripe (hhit : m.stripe = k → f = some d →
      s.page d = ∑ e ∈ (Icc 1 cfg.disks).erase d, s.page e) :
    ∃ s' m', Returns (RaidSystem.writeStripe cfg d k (parityOf t cfg.disks k - 1) buf) s
      (0, buf) s' ∧
      Holds cfg t f (storeContents L (parityOf t cfg.disks k) d k buf.1) s' m' := by
  by_cases hstripe : m.stripe = k
  · have hpage : s.page d = L d k := by
      by_cases hf : f = some d
      · rw [hhit hstripe hf, h.sum_slots hstripe h₁ h₂ hf]
      · exact h.slots k hstripe d h₁ h₂ (.inl hf)
    obtain ⟨s', hr, hs'⟩ := h.writeStripe_hit hc hstripe h₁ h₂ hp hpage buf
    exact ⟨s', m, hr, hs'⟩
  · obtain ⟨s₁, hr₁, hs₁⟩ := h.cache hc hk₁ hk
    have hnum : d ≤ numOfDisksOf t cfg.disks := hc.le_numOfDisks h₂ hp
    have hr₂ := rebuildSlot_returns hc.fits hs₁.raidMetadata (hs₁.shape.layout hc) h₁
      (hs₁.shape.numOfDisks ▸ hnum)
    obtain ⟨s', hr, hs'⟩ := (hs₁.rebuilt rfl h₁ h₂).writeStripe_hit hc rfl h₁ h₂ hp
      (hs₁.rebuiltPage_self rfl h₁ h₂) buf
    exact ⟨s', _, (returns_writeStripe_miss h.raidMetadata hstripe hr₁ hr₂ hs₁.raidMetadata
      rfl).2 hr, hs'⟩

end

end Holds

/-! ### From the calls to the stripe -/

section Dispatch

variable {cfg : Config} {t : RaidType} {f : Option ℕ} {s s' : Machine} {m : Raid} {b : ℕ}
  {buf : Block} {r : ℤ × Option Block}

theorem ParityMeta.not_maxDeadDisks_le (hs : ParityMeta cfg t f m) :
    ¬ m.maxDeadDisks ≤ m.numDeadDisks := by
  rw [hs.maxDeadDisks, hs.numDeadDisks]
  split <;> omega

theorem ParityConfig.ne_other (hc : ParityConfig cfg t) (v : ℕ) : t ≠ .other v := by
  rintro rfl
  rcases hc.type with h | h <;> cases h

section

variable (hc : ParityConfig cfg t) (hm : s.raidMetadata = some m) (hs : ParityMeta cfg t f m)

include hc hm hs

theorem returns_accessFunction_parity {g : Bodies} {v : ℤ × Block} :
    Returns (accessFunction g m.type b buf) s v s' ↔
      Returns (g.stripe (dataDiskOf t cfg.disks b) (stripeOf cfg.disks b)
        (parityOf t cfg.disks (stripeOf cfg.disks b) - 1) buf) s v s' := by
  have hn := hc.disks
  rw [hs.type]
  rcases hc.type with rfl | rfl
  · have hnum : m.numOfDisks = cfg.disks - 1 := hs.numOfDisks
    rw [accessFunction, (metadata_returns hm).bind_iff, if_neg hs.not_maxDeadDisks_le,
      (divisor_returns (by omega)).bind_iff, hs.parityDisk rfl, hnum]
    simp [dataDiskOf, stripeOf, parityOf]
  · have hnum : m.numOfDisks = cfg.disks := hs.numOfDisks
    rw [accessFunction, (metadata_returns hm).bind_iff, if_neg hs.not_maxDeadDisks_le,
      (divisor_returns (by omega)).bind_iff, (divisor_returns (by omega)).bind_iff, hnum,
      readRaid5Addr_eq]

/-- An accepted read reaches the code that the two types share. -/
theorem returns_readRaid_parity (hb : m.Accepts b) :
    Returns (readRaid cfg b (some buf)) s r s' ↔
      ∃ v, Returns (readStripe cfg (dataDiskOf t cfg.disks b) (stripeOf cfg.disks b)
        (parityOf t cfg.disks (stripeOf cfg.disks b) - 1) buf) s v s' ∧ r = (v.1, some v.2) := by
  simp only [returns_readRaid_type hm hb (hs.type ▸ hc.ne_other), readFunction_eq,
    returns_accessFunction_parity hc hm hs]

/-- An accepted write reaches the code that the two types share. -/
theorem returns_writeRaid_parity (hb : m.Accepts b) :
    Returns (writeRaid cfg b (some buf)) s r s' ↔
      ∃ v, Returns (writeStripe cfg (dataDiskOf t cfg.disks b) (stripeOf cfg.disks b)
        (parityOf t cfg.disks (stripeOf cfg.disks b) - 1) buf) s v s' ∧ r = (v.1, some v.2) := by
  simp only [returns_writeRaid_type hm hb (hs.type ▸ hc.ne_other), writeFunction_eq,
    returns_accessFunction_parity hc hm hs]

end

/-- A block whose stripe lies on the disks is one that the guard accepts. -/
theorem ParityMeta.accepts (hs : ParityMeta cfg t f m) (hc : ParityConfig cfg t)
    (hk : cfg.OnDisk (stripeOf cfg.disks b)) : m.Accepts b := by
  have hn := hc.disks
  have hfit := hc.fits
  have hsize := cfg.diskSize_lt
  unfold Config.OnDisk stripeOf at hk
  simp only [Config.CacheFits, blocksize, bsize, pgsize] at hk hfit
  -- neither the number of disks nor the size of a disk is large enough for a wrap-around
  have hq : b / (cfg.disks - 1) + 2 ≤ cfg.diskSize / 1024 := by omega
  have hb : b < (cfg.disks - 1) * (b / (cfg.disks - 1) + 1) :=
    Nat.lt_mul_div_succ b (by omega)
  have hle : (cfg.disks - 1) * (b / (cfg.disks - 1) + 1) ≤
      cfg.disks * (cfg.diskSize / 512 - 1) := Nat.mul_le_mul (by omega) (by omega)
  have hwrap : cfg.disks * (cfg.diskSize / 512 - 1) < 2 ^ 32 :=
    calc cfg.disks * (cfg.diskSize / 512 - 1) ≤ 6 * (2 ^ 22) := Nat.mul_le_mul (by omega) (by omega)
      _ < 2 ^ 32 := by norm_num
  refine ⟨hs.raidInitialized, by omega, ?_⟩
  rw [hs.maxBlocks, capacity, blocksize, Nat.mod_eq_of_lt hwrap]
  omega

end Dispatch

end RaidSystem
