/-
**The accesses that the functions perform.**

For each function of the source, what it indexes, divides by and transfers, as a rule for the
judgement `Traces P`: if `P` holds of the accesses named in the hypotheses, then it holds of every
access of the function.  `P` is arbitrary, so the same rules serve for statements about block
numbers, about disk numbers and about table indices.

The hypotheses speak about the state before the call.  Where a table entry read on the way decides
what is accessed next, they say so: `readMirror` transfers from the copy only if the primary is
taken for dead.

* `deadAt` — what the test `disk_state[j] == DEAD` answers;
* `traces_fetch`, `traces_writeback`, `traces_initRaid`;
* `traces_readMirror`, `traces_writeMirror`, `traces_readStripe`, `traces_writeStripe` — the code
  that the access functions share;
* `traces_failRoles`, `traces_repairRoles`.
-/

import RaidSystem.Frames

set_option autoImplicit false

namespace RaidSystem

open Prog

variable {cfg : Config} {P : Access → Prop} {s s' : Machine} {m : Raid} {i k : ℕ} {buf : Block}

/-- The answer to the test `disk_state[j] == DEAD`. -/
def deadAt (cfg : Config) (s : Machine) (m : Raid) (j : ℤ) : Prop :=
  m.word cfg.disks s.around (Raid.diskStateBase + j) = 1

instance (j : ℤ) : Decidable (deadAt cfg s m j) := inferInstanceAs (Decidable (_ = _))

theorem dead_returns (hm : s.raidMetadata = some m) (j : ℤ) :
    Returns (dead cfg j) s (decide (deadAt cfg s m j)) s :=
  returns_dead.2 ⟨rfl, m, hm, rfl⟩

theorem deadAt_disk {d : ℕ} (h₁ : 1 ≤ d) (h₂ : d ≤ cfg.disks) :
    deadAt cfg s m (d - 1) ↔ m.Dead d := by
  rw [deadAt, Raid.word_diskState (by omega) (by omega), DState.code_eq_one_iff, Raid.Dead,
    show ((d : ℤ) - 1).toNat = d - 1 by omega]

/-! ### Saving and loading -/

/-- `writeback` tests every disk and writes to those that are not dead. -/
theorem traces_writeback (hm : s.raidMetadata = some m)
    (hstate : ∀ d : ℕ, 1 ≤ d → d ≤ cfg.disks → P (.diskState (d - 1)))
    (hwrite : ∀ d : ℕ, 1 ≤ d → d ≤ cfg.disks → ¬ m.Dead d → P (.write d 0)) :
    Traces P (writeback cfg) s := by
  refine forRange_traces (fun _ s' => s'.raidMetadata = some m) ?_ ?_ hm
  · intro d s₁ s₂ h₁ h₂ hm₁ hr
    rw [((returns_dead_disk h₁ (by omega)).2 ⟨rfl, m, hm₁, rfl⟩).ifFalse_iff] at hr
    rcases hr with ⟨-, rfl⟩ | ⟨-, hr⟩
    · exact hm₁
    · obtain ⟨m', hm', -, rfl⟩ := returns_writeSuper.1 hr
      exact hm₁
  · intro d s₁ h₁ h₂ hm₁
    refine traces_ifFalse.2 ⟨traces_dead (hstate d h₁ (by omega)), fun s₂ hr => ?_⟩
    obtain ⟨rfl, m', hm', hd⟩ := (returns_dead_disk h₁ (by omega)).1 hr
    obtain rfl := Option.mem_unique hm₁ hm'
    exact traces_writeSuper (hwrite d h₁ (by omega) (by simpa using hd))

/-- The loop of `fetch` reads, and tests, up to the disk whose copy it ends with. -/
theorem traces_fetchLoop (hi : 1 ≤ i) (hk : i + k = cfg.disks)
    (h : ∀ j, i ≤ j → j ≤ fetchSourceFrom s.super i k → P (.read j 0) ∧ P (.diskState j)) :
    Traces P (fetchLoop cfg i (k + 1)) s := by
  induction k generalizing i s with
  | zero =>
    obtain ⟨hread, hstate⟩ := h i le_rfl (by simp [fetchSourceFrom])
    rw [fetchLoop, ((returns_readSuper (u := ())).2 ⟨⟨hi, by omega⟩, rfl⟩).traces_bind_iff]
    refine ⟨traces_readSuper hread, ?_⟩
    rw [(dead_returns rfl i).traces_bind_iff]
    refine ⟨traces_dead hstate, ?_⟩
    simp [fetchLoop]
  | succ k ih =>
    have hle : i ≤ fetchSourceFrom s.super i (k + 1) := le_fetchSourceFrom _ _ _
    obtain ⟨hread, hstate⟩ := h i le_rfl hle
    rw [fetchLoop, ((returns_readSuper (u := ())).2 ⟨⟨hi, by omega⟩, rfl⟩).traces_bind_iff]
    refine ⟨traces_readSuper hread, ?_⟩
    rw [(dead_returns rfl i).traces_bind_iff]
    refine ⟨traces_dead hstate, traces_ite.2 ⟨fun hd => ?_, fun _ => traces_pure⟩⟩
    have hd' : (s.super i).diskState i = .DEAD := by
      have h := of_decide_eq_true hd
      rwa [deadAt, Raid.word_diskState (by omega) (by omega), Int.toNat_natCast,
        DState.code_eq_one_iff] at h
    refine ih (by omega) (by omega) fun j hj₁ hj₂ => h j (by omega) ?_
    rw [fetchSourceFrom, if_pos hd']
    exact hj₂

/-- `fetch` does nothing if the metadata are in memory, and else reads up to its source. -/
theorem traces_fetch (hn : 1 ≤ cfg.disks) (h : s.ready = false →
    ∀ j, 1 ≤ j → j ≤ fetchSource cfg.disks s.super → P (.read j 0) ∧ P (.diskState j)) :
    Traces P (fetch cfg) s := by
  rw [fetch, (returns_ready.2 ⟨rfl, rfl⟩).traces_bind_iff]
  refine ⟨traces_ready, traces_ite.2 ⟨fun _ => traces_pure, fun hready => ?_⟩⟩
  obtain ⟨k, hk⟩ : ∃ k, cfg.disks = k + 1 := ⟨cfg.disks - 1, by omega⟩
  have h := h (by simpa using hready)
  rw [fetchSource, show cfg.disks - 1 = k by omega] at h
  rw [kalloc, modify_returns.traces_bind_iff, modify_returns.traces_bind_iff, traces_bind, hk]
  exact ⟨traces_modify, traces_modify, traces_fetchLoop le_rfl (by omega) h,
    fun _ _ _ => traces_setMetadata⟩

/-! ### Initialisation -/

theorem traces_initMirror (h : ∀ i < cfg.disks / 2, P (.dataDisks i) ∧ P (.copyDisks i)) :
    Traces P (initMirror cfg) s := by
  rw [initMirror, traces_bind]
  refine ⟨traces_setMetadata, fun _ s₁ _ => ?_⟩
  refine forRange_traces (fun _ _ => True) (fun _ _ _ _ _ _ _ => trivial) ?_ trivial
  intro i s₂ _ hi _
  obtain ⟨hdata, hcopy⟩ := h i (by omega)
  exact traces_bind.2 ⟨traces_setDataDisks hdata, fun _ _ _ => traces_setCopyDisks hcopy⟩

theorem traces_initType (t : RaidType)
    (h : ∀ i < cfg.disks / 2, P (.dataDisks i) ∧ P (.copyDisks i)) :
    Traces P (initType cfg t) s := by
  cases t with
  | RAID0_1 => exact traces_bind.2 ⟨traces_setMetadata, fun _ _ _ => traces_initMirror h⟩
  | RAID1 => exact traces_initMirror h
  | RAID4 => exact traces_setMetadata
  | RAID5 => exact traces_setMetadata
  | RAID0 => exact traces_pure
  | other v => exact traces_pure

theorem traces_initRaid (hn : 1 ≤ cfg.disks) (t : RaidType)
    (hfetch : s.ready = false →
      ∀ j, 1 ≤ j → j ≤ fetchSource cfg.disks s.super → P (.read j 0) ∧ P (.diskState j))
    (hroles : ∀ i < cfg.disks / 2, P (.dataDisks i) ∧ P (.copyDisks i))
    (hwrite : ∀ d : ℕ, 1 ≤ d → d ≤ cfg.disks → P (.write d 0)) :
    Traces P (initRaid cfg t) s := by
  rw [initRaid, traces_bind]
  refine ⟨traces_fetch hn hfetch, fun _ s₁ _ =>
    traces_bind.2 ⟨traces_setMetadata, fun _ s₂ _ => ?_⟩⟩
  refine traces_bind.2 ⟨traces_initType t hroles, fun _ s₃ _ => ?_⟩
  refine traces_bind.2 ⟨?_, fun _ _ _ => traces_pure⟩
  refine forRange_traces (fun _ _ => True) (fun _ _ _ _ _ _ _ => trivial) ?_ trivial
  intro d s₄ h₁ h₂ _
  exact traces_writeSuper (hwrite d h₁ (by omega))

/-! ### Mirrored access -/

/-- The accesses of a read of column `i`: the primary, or the copy if the primary is taken for
dead. -/
theorem traces_readMirror (hm : s.raidMetadata = some m) {x y : ℤ}
    (hx : Returns (dataDisks cfg i) s x s) (hy : Returns (copyDisks cfg i) s y s)
    (hdata : P (.dataDisks i)) (hcopy : P (.copyDisks i)) (hstate : P (.diskState (x - 1)))
    (hread : ¬ deadAt cfg s m (x - 1) → P (.read x k))
    (hsnd : deadAt cfg s m (x - 1) → P (.diskState (y - 1)))
    (hread' : deadAt cfg s m (x - 1) → ¬ deadAt cfg s m (y - 1) → P (.read y k)) :
    Traces P (readMirror cfg i k buf) s := by
  rw [readMirror, hx.traces_bind_iff, hy.traces_bind_iff, (dead_returns hm _).traces_bind_iff]
  refine ⟨traces_dataDisks hdata, traces_copyDisks hcopy, traces_dead hstate,
    traces_ite.2 ⟨fun hd => ?_, fun hd => ?_⟩⟩
  · have hd := of_decide_eq_true hd
    rw [(dead_returns hm _).traces_bind_iff]
    refine ⟨traces_dead (hsnd hd), traces_ite.2 ⟨fun _ => traces_pure, fun hd' => ?_⟩⟩
    exact traces_bind.2 ⟨traces_readBlock (hread' hd (by simpa using hd')),
      fun _ _ _ => traces_pure⟩
  · exact traces_bind.2 ⟨traces_readBlock (hread (by simpa using hd)), fun _ _ _ => traces_pure⟩

theorem traces_writeUnlessDead (hm : s.raidMetadata = some m) {x : ℤ}
    (hstate : P (.diskState (x - 1))) (hwrite : ¬ deadAt cfg s m (x - 1) → P (.write x k)) :
    Traces P (writeUnlessDead cfg x k buf) s := by
  rw [writeUnlessDead, (dead_returns hm _).traces_bind_iff]
  refine ⟨traces_dead hstate, traces_ite.2 ⟨fun _ => traces_pure, fun hd => ?_⟩⟩
  exact traces_bind.2 ⟨traces_writeBlock (hwrite (by simpa using hd)), fun _ _ _ => traces_pure⟩

/-- The accesses of a write of column `i`: the primary and the copy, unless taken for dead. -/
theorem traces_writeMirror (hm : s.raidMetadata = some m) {x y : ℤ}
    (hx : Returns (dataDisks cfg i) s x s) (hy : Returns (copyDisks cfg i) s y s)
    (hdata : P (.dataDisks i)) (hcopy : P (.copyDisks i)) (hstate : P (.diskState (x - 1)))
    (hwrite : ¬ deadAt cfg s m (x - 1) → P (.write x k)) (hstate' : P (.diskState (y - 1)))
    (hwrite' : ¬ deadAt cfg s m (y - 1) → P (.write y k)) :
    Traces P (writeMirror cfg i k buf) s := by
  rw [writeMirror, hx.traces_bind_iff, hy.traces_bind_iff]
  refine ⟨traces_dataDisks hdata, traces_copyDisks hcopy, traces_bind.2
    ⟨traces_writeUnlessDead hm hstate hwrite, fun v s₁ h₁ => traces_bind.2 ⟨?_, fun _ _ _ =>
      traces_pure⟩⟩⟩
  have hkeep : Preserves (fun s => (s.raidMetadata, s.around)) (writeUnlessDead cfg x k buf) :=
    preserves_writeUnlessDead fun _ _ _ _ => rfl
  obtain ⟨hm₁, hk₁⟩ := Prod.mk.inj (hkeep s v s₁ h₁)
  refine traces_writeUnlessDead (hm₁.trans hm) hstate' ?_
  rw [deadAt, hk₁]
  exact hwrite'

/-! ### Access through the stripe cache -/

section Stripe

variable {d : ℕ} {q : ℤ}

theorem traces_cacheDisk {j : ℤ} (hstate : P (.diskState j)) (hread : P (.read (j + 1) k)) :
    Traces P (cacheDisk cfg k j) s :=
  traces_ifFalse.2 ⟨traces_dead hstate, fun _ _ =>
    traces_bind.2 ⟨traces_readBlock hread, fun _ _ _ => traces_loadSlot⟩⟩

theorem traces_cache (hm : s.raidMetadata = some m)
    (hdata : ∀ d : ℕ, 1 ≤ d → d ≤ m.numOfDisks → P (.diskState (d - 1)) ∧ P (.read d k))
    (hstate : P (.diskState q)) (hread : P (.read (q + 1) k)) : Traces P (cache cfg k q) s := by
  rw [cache, (setMetadata_returns hm).traces_bind_iff, (metadata_returns rfl).traces_bind_iff]
  refine ⟨traces_setMetadata, traces_metadata, traces_bind.2 ⟨?_, fun _ _ _ => traces_bind.2
    ⟨traces_setMetadata, fun _ _ _ => traces_cacheDisk hstate hread⟩⟩⟩
  refine forRange_traces (fun _ _ => True) (fun _ _ _ _ _ _ _ => trivial) ?_ trivial
  intro d s₁ h₁ h₂ _
  obtain ⟨hs, hr⟩ := hdata d h₁ (by simp only at h₂; omega)
  exact traces_cacheDisk hs (by simpa using hr)

theorem traces_raidTocacheRecovery {n : ℕ} : Traces P (raidTocacheRecovery cfg n) s := by
  simp [raidTocacheRecovery, traces_ite]

theorem traces_syncDisk {j : ℤ} (hstate : P (.diskState j)) (hwrite : P (.write (j + 1) k)) :
    Traces P (syncDisk cfg k j) s :=
  traces_ifFalse.2 ⟨traces_dead hstate, fun _ _ =>
    traces_bind.2 ⟨traces_storeSlot, fun _ _ _ => traces_writeBlock hwrite⟩⟩

theorem traces_raidWriteUpdateparityCache {x : Sector} (hm : s.raidMetadata = some m)
    (hstripe : m.stripe = k) (hstate : P (.diskState m.parityCached))
    (hwrite : P (.write (m.parityCached + 1) k)) (hstate' : P (.diskState (d - 1)))
    (hwrite' : P (.write d k)) : Traces P (raidWriteUpdateparityCache cfg d x) s := by
  have hk : m.stripe.toNat = k := by omega
  rw [raidWriteUpdateparityCache, (metadata_returns hm).traces_bind_iff, hk]
  refine ⟨traces_metadata, traces_bind.2 ⟨traces_slotSector, fun _ _ _ => traces_bind.2
    ⟨traces_slotSector, fun _ _ _ => traces_bind.2 ⟨traces_modify, fun _ _ _ => traces_bind.2
      ⟨traces_syncDisk hstate hwrite, fun _ _ _ => ?_⟩⟩⟩⟩⟩
  exact traces_syncDisk hstate' (by simpa using hwrite')

theorem traces_copyOut : Traces P (copyOut cfg d buf) s := by
  simp [copyOut]

/-- The accesses of a read: the test of the disk, and on a miss those that load the stripe. -/
theorem traces_readStripe (hm : s.raidMetadata = some m) (hstate : P (.diskState (d - 1)))
    (hcache : m.stripe ≠ k → Traces P (cache cfg k q) s) :
    Traces P (readStripe cfg d k q buf) s := by
  have hrest : ∀ s₁, Traces P (do
      ifTrue (dead cfg (d - 1)) (raidTocacheRecovery cfg d)
      copyOut cfg d buf) s₁ := fun s₁ => traces_bind.2
    ⟨traces_ifTrue.2 ⟨traces_dead hstate, fun _ _ => traces_raidTocacheRecovery⟩,
      fun _ _ _ => traces_copyOut⟩
  rw [readStripe, (metadata_returns hm).traces_bind_iff]
  exact ⟨traces_metadata, traces_ite.2 ⟨fun _ => hrest s, fun hmiss =>
    traces_bind.2 ⟨hcache hmiss, fun _ s₁ _ => hrest s₁⟩⟩⟩

/-- The accesses of a write: on a hit those of the update, with the parity disk of the cached
stripe; on a miss those that load the stripe, the test of the disk, and those of the update. -/
theorem traces_writeStripe (hm : s.raidMetadata = some m)
    (hhit : m.stripe = k → P (.diskState m.parityCached) ∧ P (.write (m.parityCached + 1) k))
    (hmiss : m.stripe ≠ k →
      Traces P (cache cfg k q) s ∧ P (.diskState q) ∧ P (.write (q + 1) k))
    (hstate : P (.diskState (d - 1))) (hwrite : P (.write d k)) :
    Traces P (writeStripe cfg d k q buf) s := by
  rw [writeStripe, (metadata_returns hm).traces_bind_iff]
  refine ⟨traces_metadata, traces_ite.2 ⟨fun h => ?_, fun h => ?_⟩⟩
  · obtain ⟨hp, hw⟩ := hhit h
    exact traces_bind.2 ⟨traces_raidWriteUpdateparityCache hm h hp hw hstate hwrite,
      fun _ _ _ => traces_pure⟩
  · obtain ⟨hload, hp, hw⟩ := hmiss h
    refine traces_bind.2 ⟨hload, fun _ s₁ h₁ => traces_bind.2 ⟨traces_ifTrue.2
      ⟨traces_dead hstate, fun _ _ => traces_raidTocacheRecovery⟩, fun _ s₂ h₂ => ?_⟩⟩
    -- the update finds the stripe that was just loaded
    have hm₂ : s₂.raidMetadata = some { m with stripe := k, parityCached := q, parityDisk := q } :=
      (dataFrame_raidMetadata.rebuildSlot _ _ _ h₂).trans (raidMetadata_of_cache hm h₁)
    exact traces_bind.2 ⟨traces_raidWriteUpdateparityCache hm₂ rfl hp hw hstate hwrite,
      fun _ _ _ => traces_pure⟩

end Stripe

/-! ### The access functions -/

/-- The function that `raid_rw` holds for reading, by type. -/
def readFunction (cfg : Config) : RaidType → ℕ → Block → Kernel (ℤ × Block)
  | .RAID0 => readRaid0 cfg
  | .RAID1 => readRaid1 cfg
  | .RAID0_1 => readRaid01 cfg
  | .RAID4 => readRaid4 cfg
  | .RAID5 => readRaid5 cfg
  | .other _ => fun _ buf => pure (-1, buf)

/-- The function that `raid_rw` holds for writing, by type. -/
def writeFunction (cfg : Config) : RaidType → ℕ → Block → Kernel (ℤ × Block)
  | .RAID0 => writeRaid0 cfg
  | .RAID1 => writeRaid1 cfg
  | .RAID0_1 => writeRaid01 cfg
  | .RAID4 => writeRaid4 cfg
  | .RAID5 => writeRaid5 cfg
  | .other _ => fun _ buf => pure (-1, buf)

/-- What an access does once the place of its block is known: on a disk of RAID 0, in a column and
in a stripe. -/
structure Bodies where
  zero : ℕ → Block → Kernel (ℤ × Block)
  mirror : ℕ → ℕ → Block → Kernel (ℤ × Block)
  stripe : ℕ → ℕ → ℤ → Block → Kernel (ℤ × Block)

/-- What reading and writing share, by type: the refusal, the divisions and the place. -/
def accessFunction (f : Bodies) : RaidType → ℕ → Block → Kernel (ℤ × Block)
  | .RAID0, b, buf => f.zero b buf
  | .RAID1, b, buf | .RAID0_1, b, buf => do
    let m ← metadata
    divisor m.numOfDisks
    f.mirror (b % m.numOfDisks) (b / m.numOfDisks + 1) buf
  | .RAID4, b, buf => do
    let m ← metadata
    if m.maxDeadDisks ≤ m.numDeadDisks then pure (-1, buf)
    else
      divisor m.numOfDisks
      f.stripe (b % m.numOfDisks + 1) (b / m.numOfDisks + 1) m.parityDisk buf
  | .RAID5, b, buf => do
    let m ← metadata
    if m.maxDeadDisks ≤ m.numDeadDisks then pure (-1, buf)
    else
      divisor (m.numOfDisks - 1)
      divisor m.numOfDisks
      let (d, p, k) := readRaid5Addr m.numOfDisks b
      f.stripe d k (p - 1) buf
  | .other _, _, buf => pure (-1, buf)

theorem readFunction_eq (t : RaidType) : readFunction cfg t =
    accessFunction ⟨readRaid0 cfg, readMirror cfg, readStripe cfg⟩ t := by
  cases t <;> rfl

theorem writeFunction_eq (t : RaidType) : writeFunction cfg t =
    accessFunction ⟨writeRaid0 cfg, writeMirror cfg, writeStripe cfg⟩ t := by
  cases t <;> rfl

section Functions

variable {b : ℕ}

theorem traces_divisor_bind {α : Type} {n : ℕ} {body : Kernel α} (hdiv : P (.divisor n))
    (hbody : Traces P body s) : Traces P (do divisor n; body) s := by
  refine traces_bind.2 ⟨traces_divisor.2 hdiv, fun _ s₁ h => ?_⟩
  rwa [(returns_divisor.1 h).2]

section

variable (hm : s.raidMetadata = some m) (hdiv : P (.divisor m.numOfDisks))

include hm hdiv

/-- The head of an access function that divides by the number of disks. -/
theorem traces_divided {α : Type} {body : Raid → Kernel α} (hbody : Traces P (body m) s) :
    Traces P (do let m ← metadata; divisor m.numOfDisks; body m) s := by
  rw [(metadata_returns hm).traces_bind_iff]
  exact ⟨traces_metadata, traces_divisor_bind hdiv hbody⟩

theorem traces_readRaid0 (hstate : P (.diskState (b % m.numOfDisks : ℕ)))
    (hread : P (.read (b % m.numOfDisks + 1 : ℕ) (b / m.numOfDisks + 1))) :
    Traces P (readRaid0 cfg b buf) s := by
  refine traces_divided hm hdiv (traces_bind.2 ⟨traces_dead ?_, fun _ _ _ => traces_ite.2
    ⟨fun _ => traces_pure, fun _ =>
      traces_bind.2 ⟨traces_readBlock hread, fun _ _ _ => traces_pure⟩⟩⟩)
  simpa [readRaid0Addr] using hstate

/-- The write tests the state at the number of the block instead of that of the disk. -/
theorem traces_writeRaid0 (hstate : P (.diskState (b / m.numOfDisks : ℕ)))
    (hwrite : P (.write (b % m.numOfDisks + 1 : ℕ) (b / m.numOfDisks + 1))) :
    Traces P (writeRaid0 cfg b buf) s := by
  refine traces_divided hm hdiv (traces_bind.2 ⟨traces_dead ?_, fun _ _ _ => traces_ite.2
    ⟨fun _ => traces_pure, fun _ =>
      traces_bind.2 ⟨traces_writeBlock hwrite, fun _ _ _ => traces_pure⟩⟩⟩)
  simpa [writeRaid0Addr] using hstate

end

/-- The head of an access function that refuses at the limit. -/
theorem traces_refusing {body : Raid → Kernel (ℤ × Block)} (hm : s.raidMetadata = some m)
    (hbody : Traces P (body m) s) :
    Traces P (do
      let m ← metadata
      if m.maxDeadDisks ≤ m.numDeadDisks then pure (-1, buf) else body m) s := by
  rw [(metadata_returns hm).traces_bind_iff]
  exact ⟨traces_metadata, traces_ite.2 ⟨fun _ => traces_pure, fun _ => hbody⟩⟩

end Functions

section Dispatch

variable {t : RaidType} {b : ℕ}

theorem raidRw_read (ht : ∀ v, t ≠ .other v) : raidRw cfg (t.code * 2 % 2 ^ 32 + 0) b buf =
    (do emit (.raidRw (t.code * 2)); readFunction cfg t b buf) := by
  cases t with
  | other v => exact absurd rfl (ht v)
  | _ => rfl

theorem raidRw_write (ht : ∀ v, t ≠ .other v) : raidRw cfg (t.code * 2 % 2 ^ 32 + 1) b buf =
    (do emit (.raidRw (t.code * 2 + 1)); writeFunction cfg t b buf) := by
  cases t with
  | other v => exact absurd rfl (ht v)
  | _ => rfl

/-- An accepted access calls the function of the type. -/
theorem returns_readRaid_type {r : ℤ × Option Block} (hm : s.raidMetadata = some m)
    (hb : m.Accepts b) (ht : ∀ v, m.type ≠ .other v) :
    Returns (readRaid cfg b (some buf)) s r s' ↔
      ∃ v, Returns (readFunction cfg m.type b buf) s v s' ∧ r = (v.1, some v.2) := by
  have hemit : ∀ i, Returns (emit (.raidRw i) : Kernel Unit) s () s := fun i => returns_emit.2 rfl
  rw [readRaid, returns_accessRaid hm hb, Int.toNat_natCast, raidRw_read ht]
  simp only [(hemit _).bind_iff]

theorem returns_writeRaid_type {r : ℤ × Option Block} (hm : s.raidMetadata = some m)
    (hb : m.Accepts b) (ht : ∀ v, m.type ≠ .other v) :
    Returns (writeRaid cfg b (some buf)) s r s' ↔
      ∃ v, Returns (writeFunction cfg m.type b buf) s v s' ∧ r = (v.1, some v.2) := by
  have hemit : ∀ i, Returns (emit (.raidRw i) : Kernel Unit) s () s := fun i => returns_emit.2 rfl
  rw [writeRaid, returns_accessRaid hm hb, Int.toNat_natCast, raidRw_write ht]
  simp only [(hemit _).bind_iff]

/-- The reply to an access, from the pair that the access function returns. -/
theorem exists_reply_iff {P : ℤ × Block → Prop} {r : Reply} :
    (∃ v, (∃ w, P w ∧ v = (w.1, some w.2)) ∧ r = { code := v.1, data := v.2 }) ↔
      ∃ w, P w ∧ r = { code := w.1, data := some w.2 } := by
  constructor
  · rintro ⟨_, ⟨w, hw, rfl⟩, rfl⟩
    exact ⟨w, hw, rfl⟩
  · rintro ⟨w, hw, rfl⟩
    exact ⟨_, ⟨w, hw, rfl⟩, rfl⟩

/-- A rejected access accesses nothing. -/
theorem traces_accessRaid_rejected {odd : ℕ} {x : ℤ} {data : Option Block}
    (h : ¬ ∃ m buf, s.raidMetadata = some m ∧ data = some buf ∧ m.Accepts x) :
    Traces P (accessRaid cfg odd x data) s := by
  rw [accessRaid, get_returns.traces_bind_iff]
  refine ⟨traces_get, ?_⟩
  cases hm : s.raidMetadata with
  | none => simp
  | some m =>
    cases data with
    | none => simp
    | some buf =>
      have hx : ¬ m.Accepts x := fun hx => h ⟨m, buf, hm, rfl, hx⟩
      simp [hx]

section

variable (hm : s.raidMetadata = some m) (hb : m.Accepts b)

include hm hb

theorem traces_accessRaid {odd : ℕ}
    (h : Traces P (raidRw cfg (m.type.code * 2 % 2 ^ 32 + odd) b buf) s) :
    Traces P (accessRaid cfg odd b (some buf)) s := by
  rw [accessRaid, get_returns.traces_bind_iff]
  refine ⟨traces_get, ?_⟩
  simp only [hm, hb, if_true, Int.toNat_natCast]
  exact traces_bind.2 ⟨h, fun _ _ _ => traces_pure⟩

theorem traces_readRaid (hmt : m.type = t) (ht : ∀ v, t ≠ .other v)
    (hindex : P (.raidRw (t.code * 2))) (hbody : Traces P (readFunction cfg t b buf) s) :
    Traces P (readRaid cfg b (some buf)) s := by
  refine traces_accessRaid hm hb ?_
  rw [hmt, raidRw_read ht]
  exact traces_bind.2 ⟨traces_emit.2 hindex, fun _ _ h => by rwa [returns_emit.1 h]⟩

theorem traces_writeRaid (hmt : m.type = t) (ht : ∀ v, t ≠ .other v)
    (hindex : P (.raidRw (t.code * 2 + 1))) (hbody : Traces P (writeFunction cfg t b buf) s) :
    Traces P (writeRaid cfg b (some buf)) s := by
  refine traces_accessRaid hm hb ?_
  rw [hmt, raidRw_write ht]
  exact traces_bind.2 ⟨traces_emit.2 hindex, fun _ _ h => by rwa [returns_emit.1 h]⟩

end

end Dispatch

/-! ### Roles -/

section Roles

variable {entry : ℤ → Kernel ℤ} {v acc : ℤ}

section

variable (hpure : ∀ (j : ℕ) w s', Returns (entry j) s w s' → s' = s)

include hpure

/-- A search looks at the entries of the table in turn. -/
theorem traces_findLast (h : ∀ j : ℕ, i ≤ j → j < i + k → Traces P (entry j) s) :
    Traces P (findLast entry v i k acc) s := by
  induction k generalizing i acc with
  | zero => exact traces_pure
  | succ k ih =>
    refine traces_bind.2 ⟨h i (by omega) (by omega), fun w s₁ hw => ?_⟩
    rw [hpure i w s₁ hw]
    exact ih fun j h₁ h₂ => h j (by omega) (by omega)

/-- A search answers with the index of an entry that it was looking for, or as it was told to if
there is none. -/
theorem findLast_cases {r : ℤ} (h : Returns (findLast entry v i k acc) s r s') :
    s' = s ∧ ((∃ j : ℕ, i ≤ j ∧ j < i + k ∧ r = j) ∨
      r = acc ∧ ∀ j : ℕ, i ≤ j → j < i + k → ¬ Returns (entry j) s v s) := by
  induction k generalizing i acc with
  | zero =>
    obtain ⟨rfl, rfl⟩ := returns_pure.1 h
    exact ⟨rfl, .inr ⟨rfl, fun j h₁ h₂ => by omega⟩⟩
  | succ k ih =>
    obtain ⟨w, s₁, hw, hrest⟩ := returns_bind.1 h
    obtain rfl := hpure i w s₁ hw
    obtain ⟨rfl, hr⟩ := ih hrest
    refine ⟨rfl, ?_⟩
    rcases hr with ⟨j, h₁, h₂, rfl⟩ | ⟨hr, hne⟩
    · exact .inl ⟨j, by omega, by omega, rfl⟩
    · by_cases hwv : w = v
      · rw [if_pos hwv] at hr
        exact .inl ⟨i, by omega, by omega, hr⟩
      · rw [if_neg hwv] at hr
        refine .inr ⟨hr, fun j h₁ h₂ hj => ?_⟩
        rcases Nat.eq_or_lt_of_le h₁ with rfl | hlt
        · exact hwv (hw.unique hj).1
        · exact hne j hlt (by omega) hj

theorem traces_findHole (h : ∀ j : ℕ, i ≤ j → j < i + k → Traces P (entry j) s) :
    Traces P (findHole entry i k) s := by
  induction k generalizing i with
  | zero => exact traces_pure
  | succ k ih =>
    refine traces_bind.2 ⟨h i (by omega) (by omega), fun w s₁ hw => ?_⟩
    rw [hpure i w s₁ hw]
    exact traces_ite.2 ⟨fun _ => traces_pure, fun _ => ih fun j h₁ h₂ => h j (by omega) (by omega)⟩

theorem findHole_cases {r : Option ℕ} (h : Returns (findHole entry i k) s r s') :
    s' = s ∧ ∀ j, r = some j → i ≤ j ∧ j < i + k := by
  induction k generalizing i with
  | zero =>
    obtain ⟨rfl, rfl⟩ := returns_pure.1 h
    exact ⟨rfl, by simp⟩
  | succ k ih =>
    obtain ⟨w, s₁, hw, hrest⟩ := returns_bind.1 h
    obtain rfl := hpure i w s₁ hw
    rcases returns_ite.1 hrest with ⟨-, hfound⟩ | ⟨-, hrest⟩
    · obtain ⟨rfl, rfl⟩ := returns_pure.1 hfound
      exact ⟨rfl, by rintro j ⟨⟩; omega⟩
    · obtain ⟨rfl, hr⟩ := ih hrest
      refine ⟨rfl, fun j hj => ?_⟩
      have := hr j hj
      omega

end

end Roles

theorem dataDisks_pure (j : ℕ) (w : ℤ) (s' : Machine) (h : Returns (dataDisks cfg j) s w s') :
    s' = s :=
  (returns_dataDisks.1 h).1

theorem copyDisks_pure (j : ℕ) (w : ℤ) (s' : Machine) (h : Returns (copyDisks cfg j) s w s') :
    s' = s :=
  (returns_copyDisks.1 h).1

/-- The accesses of a failure that puts the reserve disk to use. -/
theorem traces_failWithReserve {x : ℤ}
    (hprimary : x ≤ m.numOfDisks → P (.dataDisks (x - 1)) ∧ P (.copyDisks (x - 1)))
    (hcopy : ¬ x ≤ m.numOfDisks → P (.copyDisks (cfg.disks - x))) :
    Traces P (failWithReserve cfg x m) s := by
  refine traces_ite.2 ⟨fun hx => ?_, fun hx => ?_⟩
  · obtain ⟨hd, hc⟩ := hprimary hx
    exact traces_bind.2 ⟨traces_copyDisks hc, fun _ _ _ => traces_bind.2 ⟨traces_setDataDisks hd,
      fun _ _ _ => traces_bind.2 ⟨traces_setCopyDisks hc, fun _ _ _ => traces_setMetadata⟩⟩⟩
  · exact traces_bind.2 ⟨traces_setCopyDisks (hcopy hx), fun _ _ _ => traces_setMetadata⟩

/-- The accesses of a failure without a reserve disk.  A disk that has no role makes the source
index `copy_disks` by `-1`. -/
theorem traces_failWithoutReserve {x : ℤ}
    (htables : ∀ j < m.numOfDisks, P (.dataDisks j) ∧ P (.copyDisks j))
    (hnone : (∀ j : ℕ, j < m.numOfDisks → ¬ Returns (dataDisks cfg j) s x s) →
      (∀ j : ℕ, j < m.numOfDisks → ¬ Returns (copyDisks cfg j) s x s) → P (.copyDisks (-1))) :
    Traces P (failWithoutReserve cfg x m) s := by
  refine traces_bind.2 ⟨traces_findLast dataDisks_pure fun j _ hj =>
    traces_dataDisks (htables j (by omega)).1, fun primary s₁ h₁ => ?_⟩
  obtain ⟨rfl, hprimary⟩ := findLast_cases dataDisks_pure h₁
  refine traces_ite.2 ⟨fun hne => ?_, fun heq => ?_⟩
  · rcases hprimary with ⟨j, -, hj, rfl⟩ | ⟨rfl, -⟩
    · obtain ⟨hd, hc⟩ := htables j (by omega)
      exact traces_bind.2 ⟨traces_copyDisks hc, fun _ _ _ => traces_bind.2 ⟨traces_setDataDisks hd,
        fun _ _ _ => traces_setCopyDisks hc⟩⟩
    · exact absurd rfl hne
  · refine traces_bind.2 ⟨traces_findLast copyDisks_pure fun j _ hj =>
      traces_copyDisks (htables j (by omega)).2, fun copy s₂ h₂ => ?_⟩
    obtain ⟨rfl, hcopy⟩ := findLast_cases copyDisks_pure h₂
    rcases hcopy with ⟨j, -, hj, rfl⟩ | ⟨rfl, hno'⟩
    · exact traces_setCopyDisks (htables j (by omega)).2
    · rcases hprimary with ⟨j, -, hj, rfl⟩ | ⟨-, hno⟩
      · omega
      · exact traces_setCopyDisks (hnone (fun j hj => hno j (by omega) (by omega))
          fun j hj => hno' j (by omega) (by omega))

theorem traces_failRoles {x : ℤ} (hm : s.raidMetadata = some m)
    (hreserve : m.type.plain = false → m.reserveDisk ≠ -1 → m.reserveDisk ≠ 0 →
      Traces P (failWithReserve cfg x m) s)
    (hwithout : m.type.plain = false → ¬ (m.reserveDisk ≠ -1 ∧ m.reserveDisk ≠ 0) →
      Traces P (failWithoutReserve cfg x m) s) : Traces P (failRoles cfg x) s := by
  rw [failRoles, (metadata_returns hm).traces_bind_iff]
  refine ⟨traces_metadata, traces_ite.2 ⟨fun _ => traces_pure, fun hplain => traces_ite.2
    ⟨fun hres => ?_, fun hres => ?_⟩⟩⟩
  · exact hreserve (by simpa using hplain) hres.1 hres.2
  · exact hwithout (by simpa using hplain) hres

theorem traces_repairRoles {x : ℤ} (hm : s.raidMetadata = some m) (htables : m.type.plain = false →
      ∀ j < m.numOfDisks, P (.dataDisks j) ∧ P (.copyDisks j)) :
    Traces P (repairRoles cfg x) s := by
  rw [repairRoles, (metadata_returns hm).traces_bind_iff]
  refine ⟨traces_metadata, traces_ite.2 ⟨fun _ => traces_pure, fun hplain => ?_⟩⟩
  have htables := htables (by simpa using hplain)
  refine traces_bind.2 ⟨traces_findHole dataDisks_pure fun j _ hj =>
    traces_dataDisks (htables j (by omega)).1, fun r s₁ h₁ => ?_⟩
  obtain ⟨rfl, hr⟩ := findHole_cases dataDisks_pure h₁
  cases r with
  | some j =>
    obtain ⟨-, hj⟩ := hr j rfl
    exact traces_setDataDisks (htables j (by omega)).1
  | none =>
    refine traces_bind.2 ⟨traces_findHole copyDisks_pure fun j _ hj =>
      traces_copyDisks (htables j (by omega)).2, fun r s₂ h₂ => ?_⟩
    obtain ⟨rfl, hr⟩ := findHole_cases copyDisks_pure h₂
    cases r with
    | some j =>
      obtain ⟨-, hj⟩ := hr j rfl
      exact traces_setCopyDisks (htables j (by omega)).2
    | none => exact traces_setMetadata

/-! ### Failure and repair -/

section FailRepair

variable {x : ℤ} {d : ℕ}

theorem traces_diskFailRaid_refused (h : ¬ ∃ m d, Addresses cfg s x m d) :
    Traces P (diskFailRaid cfg x) s := by
  rw [addresses_iff, not_not] at h
  rw [diskFailRaid, (returns_ready.2 ⟨rfl, rfl⟩).traces_bind_iff, if_pos h]
  exact ⟨traces_ready, traces_pure⟩

/-- The accesses of a failure: the test of the disk, the changes of the roles, and the save. -/
theorem traces_diskFailRaid (ha : Addresses cfg s x m d) (hstate : P (.diskState (d - 1)))
    (hroles : ¬ m.Dead d →
      Traces P (failRoles cfg d) (s.withMeta (markDead m d)))
    (hsave : ¬ m.Dead d → ∀ s₁,
      Returns (failRoles cfg d) (s.withMeta (markDead m d)) () s₁ →
        Traces P (writeback cfg) s₁) : Traces P (diskFailRaid cfg x) s := by
  have hg := addresses_iff.1 ⟨m, d, ha⟩
  obtain ⟨hm, -, rfl, h₁, h₂⟩ := ha
  have hidx : ((d : ℤ) - 1).toNat = d - 1 := by omega
  rw [diskFailRaid, (returns_ready.2 ⟨rfl, rfl⟩).traces_bind_iff, if_neg hg,
    ((returns_dead_disk h₁ h₂).2 ⟨rfl, m, hm, rfl⟩).traces_bind_iff, hidx]
  refine ⟨traces_ready, traces_dead hstate, traces_ite.2 ⟨fun _ => traces_pure, fun hd => ?_⟩⟩
  have hd : ¬ m.Dead d := by simpa using hd
  rw [(setMetadata_returns hm).traces_bind_iff]
  exact ⟨traces_setMetadata, traces_bind.2 ⟨hroles hd, fun _ s₁ h₁ =>
    traces_bind.2 ⟨hsave hd s₁ h₁, fun _ _ _ => traces_pure⟩⟩⟩

theorem traces_diskRepairedRaid_refused (h : ¬ ∃ m d, Addresses cfg s x m d) :
    Traces P (diskRepairedRaid cfg x) s := by
  rw [addresses_iff, not_not] at h
  rw [diskRepairedRaid, (returns_ready.2 ⟨rfl, rfl⟩).traces_bind_iff, if_pos h]
  exact ⟨traces_ready, traces_pure⟩

/-- The accesses of a repair: the test of the disk, the changes of the roles, and the save. -/
theorem traces_diskRepairedRaid (ha : Addresses cfg s x m d) (hstate : P (.diskState (d - 1)))
    (hroles : m.Dead d →
      Traces P (repairRoles cfg d) (s.withMeta (markRepaired m d)))
    (hsave : m.Dead d → ∀ s₁,
      Returns (repairRoles cfg d) (s.withMeta (markRepaired m d)) () s₁ →
        Traces P (writeback cfg) s₁) : Traces P (diskRepairedRaid cfg x) s := by
  have hg := addresses_iff.1 ⟨m, d, ha⟩
  obtain ⟨hm, -, rfl, h₁, h₂⟩ := ha
  have hidx : ((d : ℤ) - 1).toNat = d - 1 := by omega
  rw [diskRepairedRaid, (returns_ready.2 ⟨rfl, rfl⟩).traces_bind_iff, if_neg hg,
    ((returns_dead_disk h₁ h₂).2 ⟨rfl, m, hm, rfl⟩).traces_bind_iff, hidx]
  refine ⟨traces_ready, traces_dead hstate, traces_ite.2 ⟨fun hd => ?_, fun _ => traces_pure⟩⟩
  have hd : m.Dead d := by simpa using hd
  rw [(setMetadata_returns hm).traces_bind_iff]
  exact ⟨traces_setMetadata, traces_bind.2 ⟨hroles hd, fun _ s₁ h₁ =>
    traces_bind.2 ⟨hsave hd s₁ h₁, fun _ _ _ => traces_pure⟩⟩⟩

end FailRepair

/-! ### The calls of a run -/

section Exec

variable {x : ℤ} {data : Option Block}

theorem traces_exec_initRaid (h : Traces P (initRaid cfg (.ofInt x)) s) :
    Traces P (exec cfg (.initRaid x)) s :=
  traces_bind.2 ⟨h, fun _ _ _ => traces_pure⟩

theorem traces_exec_readRaid (h : Traces P (readRaid cfg x data) s) :
    Traces P (exec cfg (.readRaid x data)) s :=
  traces_bind.2 ⟨h, fun _ _ _ => traces_pure⟩

theorem traces_exec_writeRaid (h : Traces P (writeRaid cfg x data) s) :
    Traces P (exec cfg (.writeRaid x data)) s :=
  traces_bind.2 ⟨h, fun _ _ _ => traces_pure⟩

theorem traces_exec_diskFailRaid (h : Traces P (diskFailRaid cfg x) s) :
    Traces P (exec cfg (.diskFailRaid x)) s :=
  traces_bind.2 ⟨h, fun _ _ _ => traces_pure⟩

theorem traces_infoRaid (hfetch : Traces P (fetch cfg) s) : Traces P (infoRaid cfg) s := by
  refine traces_bind.2 ⟨hfetch, fun _ s₁ _ => traces_bind.2 ⟨traces_metadata, fun m s₂ _ => ?_⟩⟩
  exact traces_ite.2 ⟨fun _ => traces_pure, fun _ => traces_pure⟩

/-- `destroy_raid` reads disk `1` if there are no metadata in memory, and clears every disk. -/
theorem traces_destroyRaid (hread : P (.read 1 0))
    (hstate : ∀ d : ℕ, 1 ≤ d → d ≤ cfg.disks → P (.diskState (d - 1)))
    (hwrite : ∀ d : ℕ, 1 ≤ d → d ≤ cfg.disks → P (.write d 0)) :
    Traces P (destroyRaid cfg) s := by
  have hload : Traces P (ifFalse ready do
      kalloc
      readSuper cfg 1) s := by
    refine traces_ifFalse.2 ⟨traces_ready, fun s₁ _ => traces_bind.2 ⟨?_, fun _ s₂ _ => ?_⟩⟩
    · exact traces_modify
    · exact traces_readSuper hread
  refine traces_bind.2 ⟨hload, fun _ s₁ _ => traces_bind.2 ⟨traces_ready, fun r s₂ _ => ?_⟩⟩
  refine traces_ite.2 ⟨fun _ => ?_, fun _ => traces_pure⟩
  rw [modify_returns.traces_bind_iff]
  refine ⟨traces_modify, traces_bind.2
    ⟨traces_writeback rfl hstate fun d h₁ h₂ _ => hwrite d h₁ h₂, fun _ s₃ _ => ?_⟩⟩
  exact traces_bind.2 ⟨traces_modify, fun _ _ _ => traces_bind.2 ⟨traces_modify, fun _ _ _ =>
    traces_pure⟩⟩

theorem traces_exec_infoRaid (h : Traces P (infoRaid cfg) s) : Traces P (exec cfg .infoRaid) s :=
  traces_bind.2 ⟨h, fun _ _ _ => traces_pure⟩

theorem traces_exec_destroyRaid (h : Traces P (destroyRaid cfg) s) :
    Traces P (exec cfg .destroyRaid) s :=
  traces_bind.2 ⟨h, fun _ _ _ => traces_pure⟩

theorem traces_exec_reboot : Traces P (exec cfg .reboot) s :=
  traces_bind.2 ⟨traces_modify, fun _ _ _ => traces_pure⟩

theorem traces_exec_elsewhere {kmem : ℤ → ℤ} : Traces P (exec cfg (.elsewhere kmem)) s :=
  traces_bind.2 ⟨traces_modify, fun _ _ _ => traces_pure⟩

theorem traces_exec_diskRepairedRaid (h : Traces P (diskRepairedRaid cfg x) s) :
    Traces P (exec cfg (.diskRepairedRaid x)) s :=
  traces_bind.2 ⟨h, fun _ _ _ => traces_pure⟩

end Exec

end RaidSystem
