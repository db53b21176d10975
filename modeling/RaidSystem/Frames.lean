/-
**What the functions leave alone.**

An access changes blocks of the disks, the page, and the fields of the metadata that describe the
cached stripe; changing the roles of the disks changes the role tables.  Whatever part of the state
does not depend on these is the same after the call.  Such a part is given as a function `f` of the
state, and the rules of `Prog.Preserves` are used to follow the source.

* `DataFrame f`, `AccessFrame f`, `RoleFrame f` — `f` does not depend on the data, on anything that
  accesses touch, on anything that changes of roles touch;
* `AccessFrame.accessRaid` — **accesses**;
* `raidMetadata_of_readStripe`, `raidMetadata_of_writeStripe` — what they do to the metadata;
* `RoleFrame.failRoles`, `RoleFrame.repairRoles` — **changes of the roles**.
-/

import RaidSystem.Lifecycle

set_option autoImplicit false

namespace RaidSystem

open Prog

/-- The part `f` of the state does not depend on the blocks of the disks and on the page. -/
structure DataFrame {γ : Type} (f : Machine → γ) : Prop where
  disk : ∀ s d k buf, f (s.setBlock d k buf) = f s
  page : ∀ s page, f { s with page := page } = f s

/-- The part `f` of the state does not depend on what an access may change: the blocks, the page,
and what the metadata say about the cache. -/
structure AccessFrame {γ : Type} (f : Machine → γ) : Prop extends DataFrame f where
  cache : ∀ s m k q p, s.raidMetadata = some m → f { s with
    raidMetadata := some { m with stripe := k, parityCached := q, parityDisk := p } } = f s

/-- The part `f` of the state does not depend on the roles of the disks. -/
def RoleFrame {γ : Type} (f : Machine → γ) : Prop :=
  ∀ s m data copy r c p, s.raidMetadata = some m → f { s with
    raidMetadata := some { m with
      dataDisks := data, copyDisks := copy, reserveDisk := r, stripeCursor := c,
      parityDisk := p } } =
    f s

variable {cfg : Config} {γ : Type} {f : Machine → γ}

/-! ### Primitives -/

theorem preserves_metadata : Preserves f metadata := by
  intro s m s' h
  rw [(returns_metadata.1 h).2]

theorem preserves_setMetadata {g : Raid → Raid} (hg : ∀ s m, s.raidMetadata = some m →
    f (s.withMeta (g m)) = f s) : Preserves f (setMetadata g) := by
  intro s u s' h
  obtain ⟨m, hm, rfl⟩ := returns_setMetadata.1 h
  exact hg s m hm

theorem preserves_divisor {n : ℕ} : Preserves f (divisor n) := by
  intro s u s' h
  rw [(returns_divisor.1 h).2]

theorem preserves_dead {j : ℤ} : Preserves f (dead cfg j) := by
  intro s b s' h
  rw [(returns_dead.1 h).1]

theorem preserves_dataDisks {j : ℤ} : Preserves f (dataDisks cfg j) := by
  intro s w s' h
  rw [(returns_dataDisks.1 h).1]

theorem preserves_copyDisks {j : ℤ} : Preserves f (copyDisks cfg j) := by
  intro s w s' h
  rw [(returns_copyDisks.1 h).1]

theorem preserves_readBlock {d : ℤ} {k : ℕ} : Preserves f (readBlock cfg d k) := by
  intro s b s' h
  rw [(returns_readBlock.1 h).2.2.1]

theorem preserves_slotSector {i : ℤ} {len : ℕ} : Preserves f (slotSector cfg i len) := by
  intro s j s' h
  rw [(returns_slotSector.1 h).2.2]

theorem preserves_storeSlot {i : ℤ} : Preserves f (storeSlot cfg i) := by
  intro s b s' h
  rw [(returns_storeSlot.1 h).2.1]

/-! ### Access -/

section Access

variable {buf : Block} {b k i d : ℕ} {q : ℤ}

theorem preserves_readMirror : Preserves f (readMirror cfg i k buf) :=
  preserves_dataDisks.bind fun _ => preserves_copyDisks.bind fun _ => preserves_dead.bind fun _ =>
    Preserves.ite
      (preserves_dead.bind fun _ =>
        preserves_pure.ite (preserves_readBlock.bind fun _ => preserves_pure))
      (preserves_readBlock.bind fun _ => preserves_pure)

theorem preserves_readRaid0 : Preserves f (readRaid0 cfg b buf) :=
  preserves_metadata.bind fun _ => preserves_divisor.bind fun _ => preserves_dead.bind fun _ =>
    preserves_pure.ite (preserves_readBlock.bind fun _ => preserves_pure)

theorem preserves_copyOut : Preserves f (copyOut cfg d buf) :=
  preserves_slotSector.bind fun _ => preserves_get.bind fun _ => preserves_pure

theorem preserves_writeBlock (hf : ∀ s d k buf, f (s.setBlock d k buf) = f s) {j : ℤ} :
    Preserves f (writeBlock cfg j k buf) := by
  intro s u s' h
  rw [(returns_writeBlock.1 h).2.2, hf]

theorem preserves_writeUnlessDead (hf : ∀ s d k buf, f (s.setBlock d k buf) = f s) {x : ℤ} :
    Preserves f (writeUnlessDead cfg x k buf) :=
  preserves_dead.bind fun _ =>
    preserves_pure.ite ((preserves_writeBlock hf).bind fun _ => preserves_pure)

namespace DataFrame

section

variable (hf : DataFrame f)

include hf

theorem writeBlock {j : ℤ} : Preserves f (writeBlock cfg j k buf) :=
  preserves_writeBlock hf.disk

theorem loadSlot {j : ℤ} : Preserves f (loadSlot cfg j buf) := by
  intro s u s' h
  rw [(returns_loadSlot.1 h).2, hf.page]

theorem cacheDisk {j : ℤ} : Preserves f (cacheDisk cfg k j) :=
  preserves_dead.ifFalse (preserves_readBlock.bind fun _ => hf.loadSlot)

theorem raidTocacheRecovery : Preserves f (raidTocacheRecovery cfg d) := by
  refine preserves_metadata.bind fun m => preserves_slotSector.bind fun _ =>
    preserves_slotSector.bind fun _ => Preserves.ite (preserves_slotSector.bind fun _ => ?_) ?_
  · exact preserves_modify fun s => hf.page s _
  · exact preserves_modify fun s => hf.page s _

/-- Rebuilding a slot if its disk is dead. -/
theorem rebuildSlot :
    Preserves f (ifTrue (dead cfg (d - 1)) (RaidSystem.raidTocacheRecovery cfg d)) :=
  preserves_dead.ifTrue hf.raidTocacheRecovery

theorem syncDisk {j : ℤ} : Preserves f (syncDisk cfg k j) :=
  preserves_dead.ifFalse (preserves_storeSlot.bind fun _ => hf.writeBlock)

theorem raidWriteUpdateparityCache {x : Sector} :
    Preserves f (raidWriteUpdateparityCache cfg d x) :=
  preserves_metadata.bind fun _ => preserves_slotSector.bind fun _ => preserves_slotSector.bind
    fun _ => (preserves_modify fun s => hf.page s _).bind fun _ => hf.syncDisk.bind
      fun _ => hf.syncDisk

theorem writeUnlessDead {x : ℤ} : Preserves f (writeUnlessDead cfg x k buf) :=
  preserves_writeUnlessDead hf.disk

theorem writeMirror : Preserves f (writeMirror cfg i k buf) :=
  preserves_dataDisks.bind fun _ => preserves_copyDisks.bind fun _ => hf.writeUnlessDead.bind
    fun _ => hf.writeUnlessDead.bind fun _ => preserves_pure

theorem writeRaid0 : Preserves f (writeRaid0 cfg b buf) :=
  preserves_metadata.bind fun _ => preserves_divisor.bind fun _ => preserves_dead.bind fun _ =>
    preserves_pure.ite (hf.writeBlock.bind fun _ => preserves_pure)

end

end DataFrame

namespace AccessFrame

theorem cacheStripe (hf : AccessFrame f) : Preserves f (RaidSystem.cache cfg k q) := by
  refine Preserves.bind
    (preserves_setMetadata fun s m hm => hf.cache s m k m.parityCached m.parityDisk hm)
    fun _ => preserves_metadata.bind fun m => ?_
  refine (Preserves.forRange (fun _ => hf.cacheDisk) 1 _).bind fun _ => ?_
  exact (preserves_setMetadata fun s m hm => hf.cache s m m.stripe q q hm).bind
    fun _ => hf.cacheDisk

theorem readStripe (hf : AccessFrame f) : Preserves f (readStripe cfg d k q buf) := by
  have hout : Preserves f (do
      ifTrue (dead cfg (d - 1)) (raidTocacheRecovery cfg d)
      copyOut cfg d buf) := hf.rebuildSlot.bind fun _ => preserves_copyOut
  exact preserves_metadata.bind fun m => hout.ite (hf.cacheStripe.bind fun _ => hout)

theorem writeStripe (hf : AccessFrame f) : Preserves f (writeStripe cfg d k q buf) := by
  have hupdate : Preserves f (do
      raidWriteUpdateparityCache cfg d buf.1
      pure ((0 : ℤ), buf)) := hf.raidWriteUpdateparityCache.bind fun _ => preserves_pure
  exact preserves_metadata.bind fun m => hupdate.ite (hf.cacheStripe.bind fun _ =>
    hf.rebuildSlot.bind fun _ => hupdate)

/-- A call through the table, whatever the index. -/
theorem raidRw (hf : AccessFrame f) (index : ℕ) : Preserves f (raidRw cfg index b buf) := by
  refine preserves_emit.bind fun _ => ?_
  split
  · exact preserves_readRaid0
  · exact hf.writeRaid0
  · exact preserves_metadata.bind fun _ => preserves_divisor.bind fun _ => preserves_readMirror
  · exact preserves_metadata.bind fun _ => preserves_divisor.bind fun _ => hf.writeMirror
  · exact preserves_metadata.bind fun _ => preserves_divisor.bind fun _ => preserves_readMirror
  · exact preserves_metadata.bind fun _ => preserves_divisor.bind fun _ => hf.writeMirror
  · exact preserves_metadata.bind fun _ => preserves_pure.ite
      (preserves_divisor.bind fun _ => hf.readStripe)
  · exact preserves_metadata.bind fun _ => preserves_pure.ite
      (preserves_divisor.bind fun _ => hf.writeStripe)
  · exact preserves_metadata.bind fun _ => preserves_pure.ite
      (preserves_divisor.bind fun _ => preserves_divisor.bind fun _ => hf.readStripe)
  · exact preserves_metadata.bind fun _ => preserves_pure.ite
      (preserves_divisor.bind fun _ => preserves_divisor.bind fun _ => hf.writeStripe)
  · exact preserves_fail

/-- **Accesses.** -/
theorem accessRaid (hf : AccessFrame f) {odd : ℕ} {x : ℤ} {data : Option Block} :
    Preserves f (accessRaid cfg odd x data) := by
  refine preserves_get.bind fun s => ?_
  split
  · exact Preserves.ite ((hf.raidRw _).bind fun _ => preserves_pure) preserves_pure
  · exact preserves_pure

end AccessFrame

/-! ### The metadata after an access -/

section Metadata

variable {s s' : Machine} {m : Raid}

theorem dataFrame_raidMetadata : DataFrame Machine.raidMetadata :=
  ⟨fun _ _ _ _ => rfl, fun _ _ => rfl⟩

/-- The metadata after a stripe was loaded. -/
theorem raidMetadata_of_cache (hm : s.raidMetadata = some m) {u : Unit}
    (h : Returns (cache cfg k q) s u s') :
    s'.raidMetadata = some { m with stripe := k, parityCached := q, parityDisk := q } := by
  have hkeep : ∀ j, Preserves Machine.raidMetadata (cacheDisk cfg k j) := fun j =>
    dataFrame_raidMetadata.cacheDisk
  rw [cache, (setMetadata_returns hm).bind_iff, (metadata_returns rfl).bind_iff] at h
  obtain ⟨_, s₁, hloop, h⟩ := returns_bind.1 h
  have hm₁ : s₁.raidMetadata = some { m with stripe := k } :=
    Preserves.forRange (fun d : ℕ => hkeep (d - 1)) 1 _ _ _ _ hloop
  obtain ⟨_, s₂, hset, h⟩ := returns_bind.1 h
  obtain ⟨m₁, hm₁', rfl⟩ := returns_setMetadata.1 hset
  obtain rfl : { m with stripe := k } = m₁ := Option.mem_unique hm₁ hm₁'
  exact hkeep q _ _ _ h

/-- An access through the cache leaves the metadata as they are, or as loading the stripe does. -/
theorem raidMetadata_of_readStripe (hm : s.raidMetadata = some m) {v : ℤ × Block}
    (h : Returns (readStripe cfg d k q buf) s v s') : s'.raidMetadata = some m ∨
      s'.raidMetadata = some { m with stripe := k, parityCached := q, parityDisk := q } := by
  have hout : Preserves Machine.raidMetadata (do
      ifTrue (dead cfg (d - 1)) (raidTocacheRecovery cfg d)
      copyOut cfg d buf) := dataFrame_raidMetadata.rebuildSlot.bind fun _ => preserves_copyOut
  rw [readStripe, (metadata_returns hm).bind_iff] at h
  rcases returns_ite.1 h with ⟨-, hhit⟩ | ⟨-, hmiss⟩
  · exact .inl ((hout _ _ _ hhit).trans hm)
  · obtain ⟨_, s₁, hload, hrest⟩ := returns_bind.1 hmiss
    exact .inr ((hout _ _ _ hrest).trans (raidMetadata_of_cache hm hload))

theorem raidMetadata_of_writeStripe (hm : s.raidMetadata = some m) {v : ℤ × Block}
    (h : Returns (writeStripe cfg d k q buf) s v s') : s'.raidMetadata = some m ∨
      s'.raidMetadata = some { m with stripe := k, parityCached := q, parityDisk := q } := by
  have hupdate : Preserves Machine.raidMetadata (do
      raidWriteUpdateparityCache cfg d buf.1
      pure ((0 : ℤ), buf)) :=
    dataFrame_raidMetadata.raidWriteUpdateparityCache.bind fun _ => preserves_pure
  have hrebuilt : Preserves Machine.raidMetadata (do
      ifTrue (dead cfg (d - 1)) (raidTocacheRecovery cfg d)
      raidWriteUpdateparityCache cfg d buf.1
      pure ((0 : ℤ), buf)) := dataFrame_raidMetadata.rebuildSlot.bind fun _ => hupdate
  rw [writeStripe, (metadata_returns hm).bind_iff] at h
  rcases returns_ite.1 h with ⟨-, hhit⟩ | ⟨-, hmiss⟩
  · exact .inl ((hupdate _ _ _ hhit).trans hm)
  · obtain ⟨_, s₁, hload, hrest⟩ := returns_bind.1 hmiss
    exact .inr ((hrebuilt _ _ _ hrest).trans (raidMetadata_of_cache hm hload))

end Metadata

end Access

/-! ### Roles -/

/-- What a store through a table index can do to the structure. -/
theorem setWord_cases {n : ℕ} {m m' : Raid} {w v : ℤ} (h : m.setWord n w v = some m') :
    ∃ data copy r c p, m' = { m with
      dataDisks := data, copyDisks := copy, reserveDisk := r, stripeCursor := c,
        parityDisk := p } := by
  unfold Raid.setWord at h
  split at h
  · exact ⟨_, m.copyDisks, m.reserveDisk, m.stripeCursor, m.parityDisk, (Option.some_inj.1 h).symm⟩
  · exact ⟨m.dataDisks, _, m.reserveDisk, m.stripeCursor, m.parityDisk, (Option.some_inj.1 h).symm⟩
  · exact ⟨m.dataDisks, m.copyDisks, v, m.stripeCursor, m.parityDisk, (Option.some_inj.1 h).symm⟩
  · exact ⟨m.dataDisks, m.copyDisks, m.reserveDisk, v, m.parityDisk, (Option.some_inj.1 h).symm⟩
  · exact ⟨m.dataDisks, m.copyDisks, m.reserveDisk, m.stripeCursor, v, (Option.some_inj.1 h).symm⟩
  · cases h

namespace RoleFrame

theorem storeWord (hf : RoleFrame f) {w v : ℤ} : Preserves f (storeWord cfg w v) := by
  intro s u s' h
  obtain ⟨m, m', hm, hw, rfl⟩ := returns_storeWord.1 h
  obtain ⟨data, copy, r, c, p, rfl⟩ := setWord_cases hw
  exact hf s m data copy r c p hm

theorem setDataDisks (hf : RoleFrame f) {j v : ℤ} : Preserves f (setDataDisks cfg j v) :=
  preserves_emit.bind fun _ => hf.storeWord

theorem setCopyDisks (hf : RoleFrame f) {j v : ℤ} : Preserves f (setCopyDisks cfg j v) :=
  preserves_emit.bind fun _ => hf.storeWord

theorem setReserveDisk (hf : RoleFrame f) {v : ℤ} :
    Preserves f (setMetadata fun m => { m with reserveDisk := v }) :=
  preserves_setMetadata fun s m hm =>
    hf s m m.dataDisks m.copyDisks v m.stripeCursor m.parityDisk hm

end RoleFrame

theorem preserves_findLast {entry : ℤ → Kernel ℤ} (hentry : ∀ j, Preserves f (entry j)) {v : ℤ}
    (i k : ℕ) (acc : ℤ) : Preserves f (findLast entry v i k acc) := by
  induction k generalizing i acc with
  | zero => exact preserves_pure
  | succ k ih => exact (hentry i).bind fun _ => ih (i + 1) _

theorem preserves_findHole {entry : ℤ → Kernel ℤ} (hentry : ∀ j, Preserves f (entry j)) (i k : ℕ) :
    Preserves f (findHole entry i k) := by
  induction k generalizing i with
  | zero => exact preserves_pure
  | succ k ih => exact (hentry i).bind fun _ => preserves_pure.ite (ih (i + 1))

/-- **A failure's changes of the roles.** -/
theorem RoleFrame.failRoles (hf : RoleFrame f) {x : ℤ} : Preserves f (failRoles cfg x) := by
  refine preserves_metadata.bind fun m => preserves_pure.ite (Preserves.ite ?_ ?_)
  · exact Preserves.ite
      (preserves_copyDisks.bind fun _ => hf.setDataDisks.bind fun _ => hf.setCopyDisks.bind
        fun _ => hf.setReserveDisk)
      (hf.setCopyDisks.bind fun _ => hf.setReserveDisk)
  · refine (preserves_findLast (fun _ => preserves_dataDisks) 0 _ _).bind
      fun _ => Preserves.ite ?_ ?_
    · exact preserves_copyDisks.bind fun _ => hf.setDataDisks.bind fun _ => hf.setCopyDisks
    · exact (preserves_findLast (fun _ => preserves_copyDisks) 0 _ _).bind fun _ => hf.setCopyDisks

/-- **A repair's changes of the roles.** -/
theorem RoleFrame.repairRoles (hf : RoleFrame f) {x : ℤ} : Preserves f (repairRoles cfg x) := by
  refine preserves_metadata.bind fun m => preserves_pure.ite ?_
  refine (preserves_findHole (fun _ => preserves_dataDisks) 0 _).bind fun r => ?_
  cases r with
  | some i => exact hf.setDataDisks
  | none =>
    refine (preserves_findHole (fun _ => preserves_copyDisks) 0 _).bind fun r => ?_
    cases r with
    | some i => exact hf.setCopyDisks
    | none => exact hf.setReserveDisk

end RaidSystem
