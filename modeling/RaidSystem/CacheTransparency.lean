/-
**When the stripe cache is transparent.**

A cache is transparent in a state if forgetting what is cached makes no difference: reads give the
same replies, and writes leave the same data on the disks that are not dead.  This module compares
the two paths of an access, the hit and the miss, and shows that in every reachable state the cache
is transparent exactly when it is *coherent*: the slot of every disk that is not dead holds what
loading the stripe would put there, and the slot of a dead data disk is the sum of the others.

Coherence is lost in two ways.  A disk may be dead while its stripe is loaded: its slot is rebuilt
by reads of its own block, and by nothing else.  And `disk_repaired_raid` may bring the disk back
while the stripe is cached: from then on the slot is used as it is.

Main definitions:

* `Machine.uncached` — the same machine with `cache.stripe` invalid;
* `Transparent`, `Coherent` — the two notions.

Main results:

* `read_hit_iff`, `write_hit_iff` — when the hit and the miss agree, for one block;
* `transparent_iff_coherent` — **the characterisation**, in every state reachable with at most one
  disk dead at a time;
* `cache_not_transparent` — a reachable state in which the cache is not transparent.
-/

import RaidSystem.ParityGuarantees

set_option autoImplicit false

namespace RaidSystem

open Prog Finset

/-! ### Definitions -/

/-- The machine with `cache.stripe` set to the invalid value. -/
def Machine.uncached (s : Machine) : Machine :=
  { s with raidMetadata := s.raidMetadata.map fun m => { m with stripe := -1 } }

/-- A call has the same replies in both machines. -/
def SameReply (cfg : Config) (c : Call) (s₁ s₂ : Machine) : Prop :=
  ∀ r, (∃ s', Returns (exec cfg c) s₁ r s') ↔ ∃ s', Returns (exec cfg c) s₂ r s'

/-- The first halves of the blocks from block `1` on agree, on the disks that are not dead in
`s`. -/
def SameData (cfg : Config) (s s₁ s₂ : Machine) : Prop :=
  ∀ m d k, s.raidMetadata = some m → 1 ≤ d → d ≤ cfg.disks → ¬ m.Dead d → 1 ≤ k →
    s₁.disk d (2 * k) = s₂.disk d (2 * k)

/-- Forgetting what is cached changes neither the reply to a read nor the effect of a write. -/
def Transparent (cfg : Config) (s : Machine) : Prop :=
  ∀ x data, SameReply cfg (.readRaid x data) s s.uncached ∧
    SameReply cfg (.writeRaid x data) s s.uncached ∧
    ∀ r₁ s₁ r₂ s₂, Returns (exec cfg (.writeRaid x data)) s r₁ s₁ →
      Returns (exec cfg (.writeRaid x data)) s.uncached r₂ s₂ → SameData cfg s s₁ s₂

/-- The slots of the disks that are not dead hold what loading the stripe would put there, and the
slot of a dead data disk is the sum of the others. -/
def Coherent (cfg : Config) (t : RaidType) (s : Machine) : Prop :=
  ∀ m (k : ℕ), s.raidMetadata = some m → m.stripe = k → ∀ d, 1 ≤ d → d ≤ cfg.disks →
    (¬ m.Dead d → s.page d = loadedSlot m s k (parityOf t cfg.disks k) d) ∧
    (m.Dead d → d ≠ parityOf t cfg.disks k →
      s.page d = ∑ e ∈ (Icc 1 cfg.disks).erase d, s.page e)

/-- What a read of disk `d` delivers after stripe `k` was loaded. -/
def reloaded (cfg : Config) (t : RaidType) (m : Raid) (s : Machine) (k d : ℕ) : Sector :=
  if m.Dead d then
    ∑ e ∈ (Icc 1 cfg.disks).erase d, loadedSlot m s k (parityOf t cfg.disks k) e
  else loadedSlot m s k (parityOf t cfg.disks k) d

variable {cfg : Config} {t : RaidType} {f : Option ℕ} {s s' : Machine} {m : Raid} {b d k : ℕ}
  {buf : Block}

/-! ### Forgetting the cache -/

theorem uncached_raidMetadata (hm : s.raidMetadata = some m) :
    s.uncached.raidMetadata = some { m with stripe := -1 } := by
  simp [Machine.uncached, hm]

theorem ParityMeta.uncached (hs : ParityMeta cfg t f m) :
    ParityMeta cfg t f { m with stripe := -1 } := by
  refine { hs with cached := fun k hk => ?_ }
  simp only at hk
  omega

/-- Loading a stripe begins by overwriting the number of the cached one. -/
theorem returns_cache_uncached (hm : s.raidMetadata = some m) {q : ℤ} {u : Unit} :
    Returns (cache cfg k q) s.uncached u s' ↔ Returns (cache cfg k q) s u s' := by
  rw [cache, (setMetadata_returns (uncached_raidMetadata hm)).bind_iff,
    (setMetadata_returns hm).bind_iff]
  exact Iff.rfl

theorem returns_readStripe_uncached (hm : s.raidMetadata = some m) (hstripe : m.stripe ≠ k) {q : ℤ}
    {v : ℤ × Block} :
    Returns (readStripe cfg d k q buf) s.uncached v s' ↔
      Returns (readStripe cfg d k q buf) s v s' := by
  rw [readStripe, (returns_metadata.2 ⟨uncached_raidMetadata hm, rfl⟩).bind_iff,
    (metadata_returns hm).bind_iff, if_neg hstripe, if_neg (by simp only; omega)]
  simp only [returns_bind, returns_cache_uncached hm]

theorem returns_writeStripe_uncached (hm : s.raidMetadata = some m) (hstripe : m.stripe ≠ k) {q : ℤ}
    {v : ℤ × Block} : Returns (writeStripe cfg d k q buf) s.uncached v s' ↔
      Returns (writeStripe cfg d k q buf) s v s' := by
  rw [writeStripe, (returns_metadata.2 ⟨uncached_raidMetadata hm, rfl⟩).bind_iff,
    (metadata_returns hm).bind_iff, if_neg hstripe, if_neg (by simp only; omega)]
  simp only [returns_bind, returns_cache_uncached hm]

/-! ### Hit and miss -/

theorem sameReply_iff {c : Call} {s₁ s₂ s₁' s₂' : Machine} {r₁ r₂ : Reply}
    (h₁ : Returns (exec cfg c) s₁ r₁ s₁') (h₂ : Returns (exec cfg c) s₂ r₂ s₂') :
    SameReply cfg c s₁ s₂ ↔ r₁ = r₂ := by
  constructor
  · intro hsame
    obtain ⟨s', hr⟩ := (hsame r₁).1 ⟨_, h₁⟩
    exact (hr.unique h₂).1
  · rintro rfl r
    constructor
    · rintro ⟨s', hr⟩
      exact ⟨s₂', (hr.unique h₁).1 ▸ h₂⟩
    · rintro ⟨s', hr⟩
      exact ⟨s₁', (hr.unique h₂).1 ▸ h₁⟩

/-- What a read delivers once the stripe is loaded. -/
theorem rebuiltPage_loaded (hs : ParityMeta cfg t f m) {page : ℕ → Sector}
    (hload : ∀ e, 1 ≤ e → e ≤ cfg.disks → Covered cfg t f k e →
      page e = loadedSlot m s k (parityOf t cfg.disks k) e) (h₁ : 1 ≤ d) (h₂ : d ≤ cfg.disks) :
    rebuiltPage cfg m page d d = reloaded cfg t m s k d := by
  unfold reloaded
  by_cases hd : m.Dead d
  · rw [if_pos hd, rebuiltPage_dead hd]
    refine sum_erase_congr fun e he₁ he₂ hed => hload e he₁ he₂ (.inl ?_)
    rw [(hs.dead_iff d h₁ h₂).1 hd]
    simpa using hed.symm
  · rw [if_neg hd, rebuiltPage_live hd]
    exact hload d h₁ h₂ (.inl ((hs.dead_iff d h₁ h₂).not.1 hd))

section

variable (hs : ParityMeta cfg t f m) (hc : ParityConfig cfg t) (hm : s.raidMetadata = some m)
  (hstripe : m.stripe ≠ k) (hk₁ : 1 ≤ k) (hk : cfg.OnDisk k) (h₁ : 1 ≤ d) (h₂ : d ≤ cfg.disks)
  (hp : d ≠ parityOf t cfg.disks k)

include hs hc hm hstripe hk₁ hk h₁ h₂ hp

/-- A read that misses the cache. -/
theorem ParityMeta.readStripe_miss (buf : Block) :
    ∃ s' m', s'.raidMetadata = some m' ∧ ParityMeta cfg t f m' ∧
      Returns (readStripe cfg d k (parityOf t cfg.disks k - 1) buf) s
        (0, (reloaded cfg t m s k d, buf.2)) s' := by
  obtain ⟨page, hcache, hload⟩ := hs.cache_returns hc hm hk
  have hs₁ := hs.cachedMeta hc hk₁ hk
  have hnum : d ≤ numOfDisksOf t cfg.disks := hc.le_numOfDisks h₂ hp
  have hvalue := rebuiltPage_loaded hs hload h₁ h₂
  have hhit := readStripe_hit (q := parityOf t cfg.disks k - 1) (s := { s with
    raidMetadata := some (RaidSystem.cachedMeta m k (parityOf t cfg.disks k))
    page := page }) hc.fits rfl (hs₁.layout hc) rfl h₁ (hs₁.numOfDisks ▸ hnum) buf
  have hmiss := (returns_readStripe_miss hm hstripe hcache rfl rfl).2 hhit
  refine ⟨{ s with
    raidMetadata := some (RaidSystem.cachedMeta m k (parityOf t cfg.disks k))
    page := rebuiltPage cfg m page d }, _, rfl, hs₁, ?_⟩
  rw [← hvalue]
  exact hmiss

/-- A write that misses the cache writes to slots that hold the stripe. -/
theorem ParityMeta.writeStripe_miss (buf : Block) :
    ∃ s₁ m₁, s₁.raidMetadata = some m₁ ∧ ParityMeta cfg t f m₁ ∧ s₁.disk = s.disk ∧
      (¬ m.Dead (parityOf t cfg.disks k) → s₁.page (parityOf t cfg.disks k) =
        loadedSlot m s k (parityOf t cfg.disks k) (parityOf t cfg.disks k)) ∧
      s₁.page d = reloaded cfg t m s k d ∧
      Returns (writeStripe cfg d k (parityOf t cfg.disks k - 1) buf) s (0, buf)
        (written m₁ k (parityOf t cfg.disks k) d s₁ buf.1) := by
  obtain ⟨hp₁, hp₂⟩ := hc.parityOf_mem k
  obtain ⟨page, hcache, hload⟩ := hs.cache_returns hc hm hk
  have hs₁ := hs.cachedMeta hc hk₁ hk
  have hnum : d ≤ numOfDisksOf t cfg.disks := hc.le_numOfDisks h₂ hp
  have hrebuild := rebuildSlot_returns (s := { s with
    raidMetadata := some (RaidSystem.cachedMeta m k (parityOf t cfg.disks k))
    page := page }) hc.fits rfl (hs₁.layout hc) h₁ (hs₁.numOfDisks ▸ hnum)
  refine ⟨{ s with
    raidMetadata := some (RaidSystem.cachedMeta m k (parityOf t cfg.disks k))
    page := rebuiltPage cfg m page d }, _, rfl, hs₁, rfl, ?_, rebuiltPage_loaded hs hload h₁ h₂, ?_⟩
  · intro hlive
    exact (rebuiltPage_of_ne hp.symm).trans
      (hload _ hp₁ hp₂ (.inl ((hs.dead_iff _ hp₁ hp₂).not.1 hlive)))
  · refine (returns_writeStripe_miss hm hstripe hcache hrebuild rfl rfl).2 ?_
    exact writeStripe_hit hc.fits rfl hk rfl rfl hp₁ hp₂ h₁ h₂ hp buf

end

/-- A read that hits the cache agrees with one that misses it exactly if the slot, rebuilt in case
its disk is dead, holds what loading the stripe would yield. -/
theorem read_hit_iff (hc : ParityConfig cfg t) (hm : s.raidMetadata = some m)
    (hs : ParityMeta cfg t f m) (hstripe : m.stripe = stripeOf cfg.disks b) :
    SameReply cfg (.readRaid b (some buf)) s s.uncached ↔
      rebuiltPage cfg m s.page (dataDiskOf t cfg.disks b) (dataDiskOf t cfg.disks b) =
        reloaded cfg t m s (stripeOf cfg.disks b) (dataDiskOf t cfg.disks b) := by
  obtain ⟨h₁, h₂, hp⟩ := dataDiskOf_spec (t := t) hc.disks b
  obtain ⟨hk₁, hk, -⟩ := hs.cached _ hstripe
  have hm₀ := uncached_raidMetadata hm
  have hs₀ := hs.uncached
  have hnum : dataDiskOf t cfg.disks b ≤ numOfDisksOf t cfg.disks := hc.le_numOfDisks h₂ hp
  have hhit := (returns_readRaid_parity hc hm hs (hs.accepts hc hk)).2 ⟨_, readStripe_hit hc.fits hm
    (hs.layout hc) hstripe h₁ (hs.numOfDisks ▸ hnum) buf, rfl⟩
  obtain ⟨s', m', -, -, hr⟩ :=
    hs₀.readStripe_miss hc hm₀ (by simp only; omega) hk₁ hk h₁ h₂ hp buf
  have hmiss := (returns_readRaid_parity hc hm₀ hs₀ (hs₀.accepts hc hk)).2 ⟨_, hr, rfl⟩
  rw [sameReply_iff (returns_exec_readRaid.2 ⟨_, hhit, rfl⟩)
    (returns_exec_readRaid.2 ⟨_, hmiss, rfl⟩)]
  simp only [Reply.mk.injEq, Option.some_inj, Prod.mk.injEq, and_true, true_and]
  exact Iff.rfl

/-- Two writes to the same slot leave the same data exactly if the parity blocks agree. -/
theorem sameData_written_iff {p : ℕ} {m₁ : Raid} {s₁ : Machine} (hm : s.raidMetadata = some m)
    (hdead : ∀ e, 1 ≤ e → e ≤ cfg.disks → (m₁.Dead e ↔ m.Dead e)) (hdisk : s₁.disk = s.disk)
    (hk : 1 ≤ k) (hp₁ : 1 ≤ p) (hp₂ : p ≤ cfg.disks) (hpd : d ≠ p) (x : Sector) :
    SameData cfg s (written m k p d s x) (written m₁ k p d s₁ x) ↔
      (¬ m.Dead p → s.page p + s.page d = s₁.page p + s₁.page d) := by
  constructor
  · intro hsame hp
    have h := hsame m p k hm hp₁ hp₂ hp hk
    rw [written_disk_parity hpd hp, written_disk_parity hpd ((hdead p hp₁ hp₂).not.2 hp)] at h
    exact add_right_cancel h
  · intro hsum m' e j hm' he₁ he₂ he hj
    obtain rfl := Option.mem_unique hm hm'
    have he' : ¬ m₁.Dead e := (hdead e he₁ he₂).not.2 he
    by_cases hjk : j = k
    · subst hjk
      by_cases hed : e = d
      · subst hed
        rw [written_disk_data hpd he, written_disk_data hpd he']
      · by_cases hep : e = p
        · subst hep
          rw [written_disk_parity hpd he, written_disk_parity hpd he', hsum he]
        · rw [written_disk_other hep hed, written_disk_other hep hed, hdisk]
    · rw [written_disk_of_ne hjk, written_disk_of_ne hjk, hdisk]

/-- A write that hits the cache and one that misses it both succeed, and they agree exactly if the
parity block comes out the same, or its disk is dead. -/
theorem write_hit_iff (hc : ParityConfig cfg t) (hm : s.raidMetadata = some m)
    (hs : ParityMeta cfg t f m) (hstripe : m.stripe = stripeOf cfg.disks b) (buf : Block) :
    ∃ s₁ s₂,
      Returns (exec cfg (.writeRaid b (some buf))) s { code := 0, data := some buf } s₁ ∧
      Returns (exec cfg (.writeRaid b (some buf))) s.uncached { code := 0, data := some buf } s₂ ∧
      (SameData cfg s s₁ s₂ ↔
        (¬ m.Dead (parityOf t cfg.disks (stripeOf cfg.disks b)) →
          s.page (parityOf t cfg.disks (stripeOf cfg.disks b)) + s.page (dataDiskOf t cfg.disks b) =
            loadedSlot m s (stripeOf cfg.disks b) (parityOf t cfg.disks (stripeOf cfg.disks b))
                (parityOf t cfg.disks (stripeOf cfg.disks b)) +
              reloaded cfg t m s (stripeOf cfg.disks b) (dataDiskOf t cfg.disks b))) := by
  obtain ⟨h₁, h₂, hp⟩ := dataDiskOf_spec (t := t) hc.disks b
  obtain ⟨hp₁, hp₂⟩ := hc.parityOf_mem (stripeOf cfg.disks b)
  obtain ⟨hk₁, hk, hcached⟩ := hs.cached _ hstripe
  have hm₀ := uncached_raidMetadata hm
  have hs₀ := hs.uncached
  have hhit := (returns_writeRaid_parity hc hm hs (hs.accepts hc hk)).2
    ⟨_, writeStripe_hit hc.fits hm hk hstripe hcached hp₁ hp₂ h₁ h₂ hp buf, rfl⟩
  obtain ⟨s₁, m₁, -, hs₁, hdisk, hparity, hdata, hr⟩ :=
    hs₀.writeStripe_miss hc hm₀ (by simp only; omega) hk₁ hk h₁ h₂ hp buf
  have hmiss := (returns_writeRaid_parity hc hm₀ hs₀ (hs₀.accepts hc hk)).2 ⟨_, hr, rfl⟩
  have hdead : ∀ e, 1 ≤ e → e ≤ cfg.disks → (m₁.Dead e ↔ m.Dead e) := fun e he₁ he₂ =>
    (hs₁.dead_iff e he₁ he₂).trans (hs.dead_iff e he₁ he₂).symm
  refine ⟨_, _, returns_exec_writeRaid.2 ⟨_, hhit, rfl⟩,
    returns_exec_writeRaid.2 ⟨_, hmiss, rfl⟩, ?_⟩
  rw [sameData_written_iff hm hdead hdisk hk₁ hp₁ hp₂ hp]
  refine forall_congr' fun hlive => ?_
  rw [hparity hlive, hdata]
  exact Iff.rfl

/-! ### Coherence -/

/-- For the data disk `d` of the cached stripe `k`, reads and writes agree with a reload. -/
def Agrees (cfg : Config) (t : RaidType) (m : Raid) (s : Machine) (k d : ℕ) : Prop :=
  rebuiltPage cfg m s.page d d = reloaded cfg t m s k d ∧
    (¬ m.Dead (parityOf t cfg.disks k) → s.page (parityOf t cfg.disks k) + s.page d =
      loadedSlot m s k (parityOf t cfg.disks k) (parityOf t cfg.disks k) + reloaded cfg t m s k d)

theorem ParityMeta.live_of_dead (hs : ParityMeta cfg t f m) {e : ℕ} (h₁ : 1 ≤ d)
    (h₂ : d ≤ cfg.disks) (hd : m.Dead d) (he₁ : 1 ≤ e) (he₂ : e ≤ cfg.disks) (hed : e ≠ d) :
    ¬ m.Dead e := by
  rw [hs.dead_iff e he₁ he₂, (hs.dead_iff d h₁ h₂).1 hd]
  simpa using hed.symm

/-- If the slots of the live disks are what a reload would make them, so is the sum of the slots
other than that of a dead disk. -/
theorem sum_slots_eq (hs : ParityMeta cfg t f m)
    (hlive : ∀ e, 1 ≤ e → e ≤ cfg.disks → ¬ m.Dead e →
      s.page e = loadedSlot m s k (parityOf t cfg.disks k) e)
    (h₁ : 1 ≤ d) (h₂ : d ≤ cfg.disks) (hd : m.Dead d) :
    ∑ e ∈ (Icc 1 cfg.disks).erase d, s.page e = reloaded cfg t m s k d := by
  rw [reloaded, if_pos hd]
  exact sum_erase_congr fun e he₁ he₂ hed =>
    hlive e he₁ he₂ (hs.live_of_dead h₁ h₂ hd he₁ he₂ hed)

theorem slots_of_agrees (hc : ParityConfig cfg t) (hs : ParityMeta cfg t f m)
    (hag : ∀ d, 1 ≤ d → d ≤ cfg.disks → d ≠ parityOf t cfg.disks k → Agrees cfg t m s k d)
    (h₁ : 1 ≤ d) (h₂ : d ≤ cfg.disks) (hd : ¬ m.Dead d) :
    s.page d = loadedSlot m s k (parityOf t cfg.disks k) d := by
  obtain ⟨hp₁, hp₂⟩ := hc.parityOf_mem k
  have hn := hc.disks
  have hdata : ∀ e, 1 ≤ e → e ≤ cfg.disks → e ≠ parityOf t cfg.disks k → ¬ m.Dead e →
      s.page e = loadedSlot m s k (parityOf t cfg.disks k) e := by
    intro e he₁ he₂ hep he
    have h := (hag e he₁ he₂ hep).1
    rwa [rebuiltPage_live he, reloaded, if_neg he] at h
  by_cases hdp : d = parityOf t cfg.disks k
  · -- the parity slot: compare through some data disk
    subst hdp
    obtain ⟨e, he₁, he₂, hep⟩ : ∃ e, 1 ≤ e ∧ e ≤ cfg.disks ∧ e ≠ parityOf t cfg.disks k := by
      by_cases h : parityOf t cfg.disks k = 1
      · exact ⟨2, by omega, by omega, by omega⟩
      · exact ⟨1, by omega, by omega, by omega⟩
    obtain ⟨hread, hwrite⟩ := hag e he₁ he₂ hep
    by_cases he : m.Dead e
    · rw [rebuiltPage_dead he, reloaded, if_pos he] at hread
      have hmem : parityOf t cfg.disks k ∈ (Icc 1 cfg.disks).erase e :=
        mem_erase.2 ⟨hep.symm, mem_Icc.2 ⟨hp₁, hp₂⟩⟩
      rw [← Finset.add_sum_erase _ _ hmem, ← Finset.add_sum_erase _ _ hmem] at hread
      have hrest : ∑ x ∈ ((Icc 1 cfg.disks).erase e).erase (parityOf t cfg.disks k), s.page x =
          ∑ x ∈ ((Icc 1 cfg.disks).erase e).erase (parityOf t cfg.disks k),
            loadedSlot m s k (parityOf t cfg.disks k) x := by
        refine Finset.sum_congr rfl fun x hx => ?_
        obtain ⟨hxp, hx⟩ := mem_erase.1 hx
        obtain ⟨hxe, hx⟩ := mem_erase.1 hx
        obtain ⟨hx₁, hx₂⟩ := mem_Icc.1 hx
        exact hdata x hx₁ hx₂ hxp (hs.live_of_dead he₁ he₂ he hx₁ hx₂ hxe)
      rw [hrest] at hread
      exact add_right_cancel hread
    · have hsum := hwrite hd
      rw [reloaded, if_neg he, hdata e he₁ he₂ hep he] at hsum
      exact add_right_cancel hsum
  · exact hdata d h₁ h₂ hdp hd

/-- In the cached stripe, reads and writes of all blocks agree with a reload exactly if the slots
are coherent. -/
theorem agrees_iff (hc : ParityConfig cfg t) (hs : ParityMeta cfg t f m) :
    (∀ d, 1 ≤ d → d ≤ cfg.disks → d ≠ parityOf t cfg.disks k → Agrees cfg t m s k d) ↔
      ∀ d, 1 ≤ d → d ≤ cfg.disks →
        (¬ m.Dead d → s.page d = loadedSlot m s k (parityOf t cfg.disks k) d) ∧
        (m.Dead d → d ≠ parityOf t cfg.disks k →
          s.page d = ∑ e ∈ (Icc 1 cfg.disks).erase d, s.page e) := by
  obtain ⟨hp₁, hp₂⟩ := hc.parityOf_mem k
  constructor
  · intro hag d h₁ h₂
    have hlive : ∀ e, 1 ≤ e → e ≤ cfg.disks → ¬ m.Dead e →
        s.page e = loadedSlot m s k (parityOf t cfg.disks k) e :=
      fun e he₁ he₂ he => slots_of_agrees hc hs hag he₁ he₂ he
    refine ⟨hlive d h₁ h₂, fun hd hp => ?_⟩
    have hpl := hs.live_of_dead h₁ h₂ hd hp₁ hp₂ hp.symm
    have hsum := (hag d h₁ h₂ hp).2 hpl
    rw [← hlive _ hp₁ hp₂ hpl] at hsum
    rw [sum_slots_eq hs hlive h₁ h₂ hd]
    exact add_left_cancel hsum
  · intro hco d h₁ h₂ hp
    have hlive : ∀ e, 1 ≤ e → e ≤ cfg.disks → ¬ m.Dead e →
        s.page e = loadedSlot m s k (parityOf t cfg.disks k) e :=
      fun e he₁ he₂ he => (hco e he₁ he₂).1 he
    by_cases hd : m.Dead d
    · have hsum := sum_slots_eq hs hlive h₁ h₂ hd
      refine ⟨by rw [rebuiltPage_dead hd, hsum], fun hpl => ?_⟩
      rw [hlive _ hp₁ hp₂ hpl, (hco d h₁ h₂).2 hd hp, hsum]
    · have hval : reloaded cfg t m s k d = s.page d := by
        rw [reloaded, if_neg hd, hlive d h₁ h₂ hd]
      refine ⟨by rw [rebuiltPage_live hd, hval], fun hpl => ?_⟩
      rw [← hlive _ hp₁ hp₂ hpl, hval]

/-! ### Transparency -/

/-- Accesses that the guard rejects, with and without a cache. -/
theorem rejected_uncached {x : ℤ} {data : Option Block}
    (hrej : ¬ ∃ m buf, s.raidMetadata = some m ∧ data = some buf ∧ m.Accepts x) :
    ¬ ∃ m buf, s.uncached.raidMetadata = some m ∧ data = some buf ∧ m.Accepts x := by
  rintro ⟨m, buf, hm, hdata, hx⟩
  obtain ⟨m₀, hm₀, rfl⟩ := Option.map_eq_some_iff.1 hm
  exact hrej ⟨m₀, buf, hm₀, hdata, hx⟩

theorem sameReply_of_iff {c : Call} {s₁ s₂ : Machine}
    (h : ∀ r s', Returns (exec cfg c) s₁ r s' ↔ Returns (exec cfg c) s₂ r s') :
    SameReply cfg c s₁ s₂ :=
  fun r => exists_congr fun s' => h r s'

section

variable (hc : ParityConfig cfg t) (hm : s.raidMetadata = some m) (hs : ParityMeta cfg t f m)

include hc hm hs

/-- An access that does not hit the cache is the same with and without one. -/
theorem agrees_of_no_hit (hb : m.Accepts b) (hstripe : m.stripe ≠ stripeOf cfg.disks b)
    (buf : Block) :
    (∀ r s', Returns (exec cfg (.readRaid b (some buf))) s r s' ↔
      Returns (exec cfg (.readRaid b (some buf))) s.uncached r s') ∧
    ∀ r s', Returns (exec cfg (.writeRaid b (some buf))) s r s' ↔
      Returns (exec cfg (.writeRaid b (some buf))) s.uncached r s' := by
  have hm₀ := uncached_raidMetadata hm
  have hb₀ : Raid.Accepts { m with stripe := -1 } b := hb
  refine ⟨fun r s' => ?_, fun r s' => ?_⟩
  · simp only [returns_exec_readRaid, returns_readRaid_parity hc hm hs hb,
      returns_readRaid_parity hc hm₀ hs.uncached hb₀, returns_readStripe_uncached hm hstripe]
  · simp only [returns_exec_writeRaid, returns_writeRaid_parity hc hm hs hb,
      returns_writeRaid_parity hc hm₀ hs.uncached hb₀, returns_writeStripe_uncached hm hstripe]

theorem agrees_of_transparent (htr : Transparent cfg s) (hstripe : m.stripe = k) (h₁ : 1 ≤ d)
    (h₂ : d ≤ cfg.disks) (hp : d ≠ parityOf t cfg.disks k) : Agrees cfg t m s k d := by
  obtain ⟨b, rfl, rfl⟩ := exists_dataDiskOf hc.type hc.disks h₁ h₂ (hs.cached k hstripe).1 hp
  obtain ⟨hread, -, hwrite⟩ := htr b (some 0)
  obtain ⟨s₁, s₂, hr₁, hr₂, hiff⟩ := write_hit_iff hc hm hs hstripe 0
  exact ⟨(read_hit_iff hc hm hs hstripe).1 hread, hiff.1 (hwrite _ _ _ _ hr₁ hr₂)⟩

theorem transparent_of_agrees (hag : ∀ k : ℕ, m.stripe = k → ∀ d, 1 ≤ d → d ≤ cfg.disks →
      d ≠ parityOf t cfg.disks k → Agrees cfg t m s k d) : Transparent cfg s := by
  intro x data
  rcases accepted_or_rejected s x data with ⟨m', buf, b, hm', rfl, rfl, hx⟩ | hacc
  · obtain rfl := Option.mem_unique hm hm'
    by_cases hstripe : m.stripe = stripeOf cfg.disks b
    · obtain ⟨h₁, h₂, hp⟩ := dataDiskOf_spec (t := t) hc.disks b
      obtain ⟨hread, hwrite⟩ := hag _ hstripe _ h₁ h₂ hp
      obtain ⟨s₁, s₂, hr₁, hr₂, hiff⟩ := write_hit_iff hc hm hs hstripe buf
      refine ⟨(read_hit_iff hc hm hs hstripe).2 hread, (sameReply_iff hr₁ hr₂).2 rfl, ?_⟩
      intro r₁ s₁' r₂ s₂' hr₁' hr₂'
      rw [(hr₁'.unique hr₁).2, (hr₂'.unique hr₂).2]
      exact hiff.2 hwrite
    · obtain ⟨hread, hwrite⟩ := agrees_of_no_hit hc hm hs hx hstripe buf
      refine ⟨sameReply_of_iff hread, sameReply_of_iff hwrite, ?_⟩
      intro r₁ s₁ r₂ s₂ hr₁ hr₂ m' d k _ _ _ _ _
      rw [(((hwrite r₁ s₁).1 hr₁).unique hr₂).2]
  · -- rejected either way, and nothing changes
    have hrej := rejected_uncached hacc
    have hread : ∀ s₀ : Machine, (¬ ∃ m buf, s₀.raidMetadata = some m ∧ data = some buf ∧
        m.Accepts x) →
        Returns (exec cfg (.readRaid x data)) s₀ { code := -1, data := data } s₀ ∧
        Returns (exec cfg (.writeRaid x data)) s₀ { code := -1, data := data } s₀ :=
      fun s₀ h₀ => ⟨returns_exec_readRaid.2 ⟨_, (accessRaid_rejected h₀).2 ⟨rfl, rfl⟩, rfl⟩,
        returns_exec_writeRaid.2 ⟨_, (accessRaid_rejected h₀).2 ⟨rfl, rfl⟩, rfl⟩⟩
    obtain ⟨hr, hw⟩ := hread s hacc
    obtain ⟨hr₀, hw₀⟩ := hread s.uncached hrej
    refine ⟨(sameReply_iff hr hr₀).2 rfl, (sameReply_iff hw hw₀).2 rfl, ?_⟩
    intro r₁ s₁ r₂ s₂ hr₁ hr₂ m' d k _ _ _ _ _
    rw [(hr₁.unique hw).2, (hr₂.unique hw₀).2]
    rfl

end

/-! ### Reachable states -/

/-- The metadata are those of a parity array with at most one disk dead. -/
def Shaped (cfg : Config) (t : RaidType) (s : Machine) : Prop :=
  ∃ f m, s.raidMetadata = some m ∧ ParityMeta cfg t f m

theorem Shaped.of_loaded {f : Option ℕ} (hc : ParityConfig cfg t) (hs : ParityMeta cfg t f m)
    {k : ℕ} (hk₁ : 1 ≤ k) (hk : cfg.OnDisk k) (hm : s.raidMetadata = some m ∨
      s.raidMetadata = some (cachedMeta m k (parityOf t cfg.disks k))) : Shaped cfg t s := by
  rcases hm with hm | hm
  · exact ⟨f, m, hm, hs⟩
  · exact ⟨f, _, hm, hs.cachedMeta hc hk₁ hk⟩

section

variable (hc : ParityConfig cfg t) (hs : Shaped cfg t s)

include hc hs

theorem Shaped.of_read {x : ℤ} {data : Option Block} {r : Reply}
    (hr : Returns (exec cfg (.readRaid x data)) s r s') : Shaped cfg t s' := by
  obtain ⟨f, m, hm, hs⟩ := hs
  rcases readRaid_cases hc hm hs hr with ⟨-, rfl⟩ | ⟨b, buf, rfl, rfl, hk⟩
  · exact ⟨f, m, hm, hs⟩
  · obtain ⟨v, hv, -⟩ := returns_exec_readRaid.1 hr
    obtain ⟨w, hw, -⟩ := (returns_readRaid_parity hc hm hs (hs.accepts hc hk)).1 hv
    exact .of_loaded hc hs (stripeOf_pos _ _) hk (raidMetadata_of_readStripe hm hw)

theorem Shaped.of_write {x : ℤ} {data : Option Block} {r : Reply}
    (hr : Returns (exec cfg (.writeRaid x data)) s r s') : Shaped cfg t s' := by
  obtain ⟨f, m, hm, hs⟩ := hs
  rcases writeRaid_cases hc hm hs hr with ⟨-, rfl⟩ | ⟨b, buf, rfl, rfl, hk⟩
  · exact ⟨f, m, hm, hs⟩
  · obtain ⟨v, hv, -⟩ := returns_exec_writeRaid.1 hr
    obtain ⟨w, hw, -⟩ := (returns_writeRaid_parity hc hm hs (hs.accepts hc hk)).1 hv
    exact .of_loaded hc hs (stripeOf_pos _ _) hk (raidMetadata_of_writeStripe hm hw)

/-- Every call of a run keeps the metadata in shape. -/
theorem Shaped.step {c : Call} {r : Reply} (hok : OneDeadAtATime cfg s c)
    (hr : Returns (exec cfg c) s r s') : Shaped cfg t s' := by
  cases c with
  | readRaid x data => exact hs.of_read hc hr
  | writeRaid x data => exact hs.of_write hc hr
  | diskFailRaid x =>
    obtain ⟨f, m, hm, hs⟩ := hs
    rcases diskFailRaid_cases hc hm hs hok hr with rfl | ⟨d, rfl, h₁, h₂, hsaved⟩
    · exact ⟨f, m, hm, hs⟩
    · exact ⟨some d, _, hsaved.raidMetadata, hs.markDead h₁ h₂⟩
  | diskRepairedRaid x =>
    obtain ⟨f, m, hm, hs⟩ := hs
    rcases diskRepairedRaid_cases hc hm hs hr with rfl | ⟨d, rfl, -, -, hsaved⟩
    · exact ⟨f, m, hm, hs⟩
    · exact ⟨none, _, hsaved.raidMetadata, hs.markRepaired⟩
  | _ => exact hok.elim

end

/-- The array is created on zero-filled disks, and after every run with at most one disk dead at a
time, the states reached satisfy `P`. -/
def Throughout (cfg : Config) (t : RaidType) (P : Machine → Prop) : Prop :=
  ∀ s₀ : Machine, s₀.Blank → ∃ s₁, Returns (exec cfg (.initRaid t.code)) s₀ { code := 0 } s₁ ∧
    ∀ h s, Reach (exec cfg) (fun _ s c => OneDeadAtATime cfg s c) s₁ h s → P s

/-- **In every reachable state the cache is transparent exactly when it is coherent.** -/
theorem transparent_iff_coherent (hc : ParityConfig cfg t) :
    Throughout cfg t fun s => Transparent cfg s ↔ Coherent cfg t s := by
  intro s₀ hs₀
  obtain ⟨s₁, hr, L, m₁, hL, -⟩ := init_keeps hc hs₀
  refine ⟨s₁, hr, ?_⟩
  intro h s hreach
  obtain ⟨f, m, hm, hs⟩ : Shaped cfg t s := by
    refine hreach.inv (fun _ s => Shaped cfg t s) ⟨none, m₁, hL.raidMetadata, hL.shape⟩ ?_
    intro h s c r s' hs hok hret
    exact hs.step hc hok hret
  constructor
  · intro htr m' k hm' hk
    obtain rfl := Option.mem_unique hm hm'
    exact (agrees_iff hc hs).1 fun d h₁ h₂ hp => agrees_of_transparent hc hm hs htr hk h₁ h₂ hp
  · intro hco
    exact transparent_of_agrees hc hm hs fun k hk => (agrees_iff hc hs).2 (hco m k hm hk)

theorem transparent_iff_coherent_three : ParityConfig (smallConfig 3) .RAID5 ∧
    Throughout (smallConfig 3) .RAID5 fun s =>
      Transparent (smallConfig 3) s ↔ Coherent (smallConfig 3) .RAID5 s := by
  have hc : ParityConfig (smallConfig 3) .RAID5 := ⟨.inr rfl, by decide, by decide⟩
  exact ⟨hc, transparent_iff_coherent hc⟩

/-- The stripe of blocks `2` and `3` is loaded while disk `1` is dead, and the slot of that disk
still holds the `7` of an earlier stripe. -/
def staleSlot : List Call :=
  [.writeRaid 0 (some (bytes 7)), .diskFailRaid 1, .readRaid 3 (some (bytes 0))]

/-- **The cache is not transparent**: after the run above a write of `9` to block `2` leaves `14` in
the parity block, and `9` if the stripe is loaded again first. -/
theorem cache_not_transparent :
    ¬ Throughout (smallConfig 3) .RAID4 (Transparent (smallConfig 3)) := by
  intro hall
  obtain ⟨_, ⟨-, rfl⟩, hrun⟩ := hall blankMachine blankMachine_blank
  have hlive : ∃ m ∈ (Reach.after (exec (smallConfig 3)) staleSlot
      (exec (smallConfig 3) (.initRaid 3) blankMachine).state).raidMetadata, ¬ m.Dead 3 := by
    decide +kernel
  obtain ⟨m, hm, hlive⟩ := hlive
  obtain ⟨-, -, hsame⟩ := hrun staleSlot.reverse _ (.of_allows_start (by decide +kernel)) 2
    (some (bytes 9))
  obtain ⟨_, hr₁⟩ :=
    Reach.returns_of_toBool (x := exec (smallConfig 3) (.writeRaid 2 (some (bytes 9))))
    (s := Reach.after (exec (smallConfig 3)) staleSlot
      (exec (smallConfig 3) (.initRaid RaidType.RAID4.code) blankMachine).state) (by decide +kernel)
  obtain ⟨_, hr₂⟩ :=
    Reach.returns_of_toBool (x := exec (smallConfig 3) (.writeRaid 2 (some (bytes 9))))
    (s := (Reach.after (exec (smallConfig 3)) staleSlot
      (exec (smallConfig 3) (.initRaid RaidType.RAID4.code) blankMachine).state).uncached)
      (by decide +kernel)
  have hparity := hsame _ _ _ _ hr₁ hr₂ m 3 2 hm (by decide) (by decide) hlive (by decide)
  exact absurd (congrFun hparity 0) (by decide +kernel)

end RaidSystem
