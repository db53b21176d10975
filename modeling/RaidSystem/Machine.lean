/-
**The machine the array runs on.**

The state of the kernel as far as the array touches it: the page that `raid_metadata` points to,
the disks, and the words of kernel memory around the structure.  Memory and disks are divided into
sectors of `BLOCKSIZE = 512` bytes, because that is the granularity at which the program goes
wrong or right: the cache slots in the page are one sector apart, while `read_block` and
`write_block` move `BSIZE = 1024` bytes, that is two sectors, at a time.  The first 512 bytes of
block `k` of a disk are its sector `2 * k`, the other 512 bytes are sector `2 * k + 1`.

* `Config` — the two build parameters `DISKS` and `DISK_SIZE`;
* `Sector`, `Block` — 512 and 1024 bytes;
* `Machine` — the state.  Sector `0` of a disk holds the metadata copy and is kept decoded in
  `Machine.super`;
* `Machine.around` — the words around the structure;
* `Access`, `Fault` — what a trace records, and what stops the kernel;
* `readBlock`, `writeBlock`, `readSuper`, `writeSuper` — block transfers
  (`kernel/virtio_disk.c`);
* `dead`, `dataDisks`, `copyDisks`, `setDataDisks`, `setCopyDisks` — the tables of the structure,
  accessed by an unchecked index;
* `slotSector`, `loadSlot`, `storeSlot` — the cache slots `cached_data_disks[i]`.

The allocator is assumed to succeed, and the structure to fit into one sector.
-/

import RaidSystem.Metadata
import RaidSystem.Prog
import RaidSystem.XorParity
import Mathlib.Algebra.Module.Pi

set_option autoImplicit false

namespace RaidSystem

/-! ### Configuration and data -/

/-- `BLOCKSIZE`: the size of a logical block, and the distance of two cache slots. -/
abbrev blocksize : ℕ := 512

/-- `BSIZE`: the number of bytes a block transfer moves. -/
abbrev bsize : ℕ := 1024

/-- `PGSIZE`. -/
abbrev pgsize : ℕ := 4096

/-- The build parameters `DISKS` and `DISK_SIZE`.  `DISK_SIZE` is an `int`, and a disk has room
for its metadata block. -/
structure Config where
  disks : ℕ
  diskSize : ℕ
  bsize_le_diskSize : bsize ≤ diskSize
  diskSize_lt : diskSize < 2 ^ 31

/-- The transfer of block `k` stays on the disk. -/
def Config.OnDisk (cfg : Config) (k : ℕ) : Prop := (k + 1) * bsize ≤ cfg.diskSize

instance (cfg : Config) (k : ℕ) : Decidable (cfg.OnDisk k) :=
  inferInstanceAs (Decidable (_ ≤ _))

/-- `uchar`, added by exclusive or. -/
abbrev Byte := Bits 8

/-- `BLOCKSIZE` bytes. -/
abbrev Sector := Fin blocksize → Byte

/-- `BSIZE` bytes: two consecutive sectors. -/
abbrev Block := Sector × Sector

/-! ### State, accesses, faults -/

/-- The state of the kernel, as far as the array is concerned. -/
structure Machine where
  /-- What `raid_metadata` points to; `none` is the null pointer. -/
  raidMetadata : Option Raid
  /-- The sectors of the page of `raid_metadata`.  Sector `0` is the structure itself and is kept
  in `raidMetadata`; sector `i + 1` is the cache slot `cached_data_disks[i]`. -/
  page : ℕ → Sector
  /-- The metadata copy in the first sector of each disk. -/
  super : ℕ → Raid
  /-- The other sectors of each disk. -/
  disk : ℕ → ℕ → Sector
  /-- The words of kernel memory that are neither fields of the structure nor in the cache slots, by
  their distance from the structure. -/
  kmem : ℤ → ℤ
  /-- The number of pages obtained from `kalloc` and not given back. -/
  pages : ℕ

/-- The machine with the metadata `m`. -/
abbrev Machine.withMeta (s : Machine) (m : Raid) : Machine := { s with raidMetadata := some m }

theorem Machine.withMeta_self {s : Machine} {m : Raid} (hm : s.raidMetadata = some m) :
    s.withMeta m = s := by
  rw [withMeta, ← hm]

/-- The 32-bit word number `w` of a page, read as a signed number; the lowest byte comes first. -/
def pageWord (page : ℕ → Sector) (w : ℕ) : ℤ :=
  Int.bmod ((List.range 4).map fun i =>
    (page (w / 128) (Fin.ofNat blocksize (4 * (w % 128) + i))).toNat * 256 ^ i).sum (2 ^ 32)

/-- The words around the structure, as an index that leaves a table finds them: those of the sectors
after the first one are in the cache slots. -/
def Machine.around (s : Machine) (w : ℤ) : ℤ :=
  if 128 ≤ w ∧ w < 1024 then pageWord s.page w.toNat else s.kmem w

/-- The accesses that a trace records. -/
inductive Access
  /-- Calling through `raid_rw[index]`. -/
  | raidRw (index : ℕ)
  /-- Indexing `disk_state`. -/
  | diskState (index : ℤ)
  /-- Indexing `data_disks`. -/
  | dataDisks (index : ℤ)
  /-- Indexing `copy_disks`. -/
  | copyDisks (index : ℤ)
  /-- Dividing, or taking a remainder, by `value`. -/
  | divisor (value : ℕ)
  /-- `read_block(diskn, blockno, …)`. -/
  | read (diskn : ℤ) (blockno : ℕ)
  /-- `write_block(diskn, blockno, …)`. -/
  | write (diskn : ℤ) (blockno : ℕ)
deriving DecidableEq

/-- What stops the kernel. -/
inductive Fault
  /-- `raid_metadata` is used while it is null. -/
  | nullMetadata
  /-- A division by zero. -/
  | divisionByZero
  /-- A call through a `raid_rw` entry that does not exist. -/
  | raidRw (index : ℕ)
  /-- A transfer to a disk that has no `transfer_buffer`. -/
  | noDisk (diskn : ℤ)
  /-- The device refuses a block beyond its end; `virtio_disk_intr` panics on the status. -/
  | virtioDiskIntrStatus (diskn : ℤ) (blockno : ℕ)
  /-- A store through a table index that lands outside the words of the model. -/
  | wildStore
  /-- A cache slot that does not exist, or a transfer that leaves the page. -/
  | wildSlot (index : ℤ)
deriving DecidableEq

/-- Kernel routines. -/
abbrev Kernel := Prog Machine Access Fault

open Prog Function

/-! ### The metadata in memory -/

/-- Dereference `raid_metadata`. -/
def metadata : Kernel Raid := do
  let s ← get
  match s.raidMetadata with
  | some m => pure m
  | none => fail .nullMetadata

/-- Assign to fields of `raid_metadata`. -/
def setMetadata (f : Raid → Raid) : Kernel Unit := do
  let m ← metadata
  modify fun s => { s with raidMetadata := some (f m) }

/-- `raid_metadata != 0 && raid_metadata->raid_initialized`. -/
def Machine.ready (s : Machine) : Bool :=
  match s.raidMetadata with
  | some m => m.raidInitialized
  | none => false

def ready : Kernel Bool := do
  let s ← get
  pure s.ready

/-- The divisor of a division or remainder that follows. -/
def divisor (n : ℕ) : Kernel Unit := do
  emit (.divisor n)
  if n = 0 then fail .divisionByZero else pure ()

section Metadata

variable {s s' : Machine} {u : Unit}

@[simp] theorem returns_metadata {m : Raid} :
    Returns metadata s m s' ↔ s.raidMetadata = some m ∧ s' = s := by
  unfold metadata
  rw [returns_bind]
  cases h : s.raidMetadata with
  | none => simp [h]
  | some m' => simp [h, eq_comm]

theorem metadata_returns {m : Raid} (hm : s.raidMetadata = some m) : Returns metadata s m s :=
  returns_metadata.2 ⟨hm, rfl⟩

@[simp] theorem returns_setMetadata {f : Raid → Raid} :
    Returns (setMetadata f) s u s' ↔
      ∃ m, s.raidMetadata = some m ∧ s' = { s with raidMetadata := some (f m) } := by
  unfold setMetadata
  simp

theorem setMetadata_returns {f : Raid → Raid} {m : Raid} (hm : s.raidMetadata = some m) :
    Returns (setMetadata f) s () (s.withMeta (f m)) :=
  returns_setMetadata.2 ⟨m, hm, rfl⟩

@[simp] theorem returns_ready {b : Bool} :
    Returns ready s b s' ↔ b = s.ready ∧ s' = s := by
  simp [ready, and_comm]

@[simp] theorem returns_divisor {n : ℕ} : Returns (divisor n) s u s' ↔ n ≠ 0 ∧ s' = s := by
  unfold divisor
  by_cases h : n = 0 <;> simp [h]

theorem divisor_returns {n : ℕ} (hn : n ≠ 0) : Returns (divisor n) s () s :=
  returns_divisor.2 ⟨hn, rfl⟩

theorem of_divisor {α : Type} {n : ℕ} {body : Kernel α} {a : α}
    (h : Returns (do divisor n; body) s a s') : n ≠ 0 ∧ Returns body s a s' := by
  obtain ⟨_, s₁, hdiv, hbody⟩ := returns_bind.1 h
  obtain ⟨hne, rfl⟩ := returns_divisor.1 hdiv
  exact ⟨hne, hbody⟩

variable {P : Access → Prop}

@[simp] theorem traces_metadata : Traces P metadata s := by
  unfold metadata
  cases h : s.raidMetadata <;> simp [h]

@[simp] theorem traces_setMetadata {f : Raid → Raid} : Traces P (setMetadata f) s := by
  simp [setMetadata]

@[simp] theorem traces_ready : Traces P ready s := by
  simp [ready]

@[simp] theorem traces_divisor {n : ℕ} : Traces P (divisor n) s ↔ P (.divisor n) := by
  unfold divisor
  by_cases h : n = 0 <;> simp [h]

end Metadata

/-! ### Tables -/

variable (cfg : Config)

/-- `disk_state[j] == DEAD`. -/
def dead (j : ℤ) : Kernel Bool := do
  let m ← metadata
  let s ← get
  emit (.diskState j)
  pure (m.word cfg.disks s.around (Raid.diskStateBase + j) = 1)

/-- `data_disks[j]`. -/
def dataDisks (j : ℤ) : Kernel ℤ := do
  let m ← metadata
  let s ← get
  emit (.dataDisks j)
  pure (m.word cfg.disks s.around (Raid.dataDisksBase cfg.disks + j))

/-- `copy_disks[j]`. -/
def copyDisks (j : ℤ) : Kernel ℤ := do
  let m ← metadata
  let s ← get
  emit (.copyDisks j)
  pure (m.word cfg.disks s.around (Raid.copyDisksBase cfg.disks + j))

/-- Store a word of the structure. -/
def storeWord (w v : ℤ) : Kernel Unit := do
  let m ← metadata
  match m.setWord cfg.disks w v with
  | some m' => modify fun s => { s with raidMetadata := some m' }
  | none => fail .wildStore

/-- `data_disks[j] = v`. -/
def setDataDisks (j v : ℤ) : Kernel Unit := do
  emit (.dataDisks j)
  storeWord cfg (Raid.dataDisksBase cfg.disks + j) v

/-- `copy_disks[j] = v`. -/
def setCopyDisks (j v : ℤ) : Kernel Unit := do
  emit (.copyDisks j)
  storeWord cfg (Raid.copyDisksBase cfg.disks + j) v

section Tables

variable {cfg} {s s' : Machine} {u : Unit} {j v : ℤ}

/-- An entry of a table is read. -/
theorem returns_entry {α : Type} {f : Raid → Machine → α} {e : Access} {a : α} :
    Returns (do let m ← metadata; let s ← get; emit e; pure (f m s)) s a s' ↔
      s' = s ∧ ∃ m, s.raidMetadata = some m ∧ a = f m s := by
  simp only [returns_bind, returns_metadata, returns_get, returns_emit, returns_pure]
  constructor
  · rintro ⟨m, _, ⟨hm, rfl⟩, _, _, ⟨rfl, rfl⟩, _, _, rfl, rfl, rfl⟩
    exact ⟨rfl, m, hm, rfl⟩
  · rintro ⟨rfl, m, hm, rfl⟩
    exact ⟨m, _, ⟨hm, rfl⟩, _, _, ⟨rfl, rfl⟩, (), _, rfl, rfl, rfl⟩

theorem returns_dead {b : Bool} :
    Returns (dead cfg j) s b s' ↔ s' = s ∧ ∃ m, s.raidMetadata = some m ∧
      b = decide (m.word cfg.disks s.around (Raid.diskStateBase + j) = 1) :=
  returns_entry

/-- The test of the state of an existing disk. -/
theorem returns_dead_disk {b : Bool} {d : ℕ} (h₁ : 1 ≤ d) (h₂ : d ≤ cfg.disks) :
    Returns (dead cfg (d - 1)) s b s' ↔
      s' = s ∧ ∃ m, s.raidMetadata = some m ∧ b = decide (m.Dead d) := by
  have hw : ∀ m : Raid, m.word cfg.disks s.around (Raid.diskStateBase + ((d : ℤ) - 1)) = 1 ↔
      m.Dead d := by
    intro m
    rw [Raid.word_diskState (by omega) (by omega), DState.code_eq_one_iff, Raid.Dead,
      show ((d : ℤ) - 1).toNat = d - 1 by omega]
  rw [returns_dead]
  simp only [hw]

theorem returns_dataDisks {w : ℤ} :
    Returns (dataDisks cfg j) s w s' ↔ s' = s ∧ ∃ m, s.raidMetadata = some m ∧
      w = m.word cfg.disks s.around (Raid.dataDisksBase cfg.disks + j) :=
  returns_entry

theorem returns_copyDisks {w : ℤ} :
    Returns (copyDisks cfg j) s w s' ↔ s' = s ∧ ∃ m, s.raidMetadata = some m ∧
      w = m.word cfg.disks s.around (Raid.copyDisksBase cfg.disks + j) :=
  returns_entry

theorem returns_storeWord {w : ℤ} :
    Returns (storeWord cfg w v) s u s' ↔ ∃ m m', s.raidMetadata = some m ∧
      m.setWord cfg.disks w v = some m' ∧ s' = { s with raidMetadata := some m' } := by
  unfold storeWord
  simp only [returns_bind, returns_metadata]
  constructor
  · rintro ⟨m, _, ⟨hm, rfl⟩, h⟩
    cases hw : m.setWord cfg.disks w v with
    | none => simp [hw] at h
    | some m' => exact ⟨m, m', hm, hw, by simpa [hw] using h⟩
  · rintro ⟨m, m', hm, hw, rfl⟩
    exact ⟨m, s, ⟨hm, rfl⟩, by simp [hw]⟩

theorem returns_setDataDisks :
    Returns (setDataDisks cfg j v) s u s' ↔
      Returns (storeWord cfg (Raid.dataDisksBase cfg.disks + j) v) s u s' := by
  simp [setDataDisks]

theorem returns_setCopyDisks :
    Returns (setCopyDisks cfg j v) s u s' ↔
      Returns (storeWord cfg (Raid.copyDisksBase cfg.disks + j) v) s u s' := by
  simp [setCopyDisks]

section Entries

variable {m : Raid} {i : ℕ} (hm : s.raidMetadata = some m) (hi : i < cfg.disks / 2)

include hm hi

theorem dataDisks_returns : Returns (dataDisks cfg i) s (m.dataDisks i) s := by
  refine returns_dataDisks.2 ⟨rfl, m, hm, ?_⟩
  rw [Raid.word_dataDisks (by omega) (by omega), Int.toNat_natCast]

theorem copyDisks_returns : Returns (copyDisks cfg i) s (m.copyDisks i) s := by
  refine returns_copyDisks.2 ⟨rfl, m, hm, ?_⟩
  rw [Raid.word_copyDisks (by omega) (by omega), Int.toNat_natCast]

theorem setDataDisks_returns (v : ℤ) :
    Returns (setDataDisks cfg i v) s () { s with
      raidMetadata := some { m with dataDisks := update m.dataDisks i v } } := by
  refine returns_setDataDisks.2 (returns_storeWord.2 ⟨m, _, hm,
    Raid.setWord_dataDisks (by omega) (by omega), ?_⟩)
  rw [Int.toNat_natCast]

theorem setCopyDisks_returns (v : ℤ) :
    Returns (setCopyDisks cfg i v) s () { s with
      raidMetadata := some { m with copyDisks := update m.copyDisks i v } } := by
  refine returns_setCopyDisks.2 (returns_storeWord.2 ⟨m, _, hm,
    Raid.setWord_copyDisks (by omega) (by omega), ?_⟩)
  rw [Int.toNat_natCast]

end Entries

variable {P : Access → Prop}

theorem traces_dead (h : P (.diskState j)) : Traces P (dead cfg j) s := by
  simp [dead, h]

theorem traces_dataDisks (h : P (.dataDisks j)) : Traces P (dataDisks cfg j) s := by
  simp [dataDisks, h]

theorem traces_copyDisks (h : P (.copyDisks j)) : Traces P (copyDisks cfg j) s := by
  simp [copyDisks, h]

theorem traces_storeWord {w : ℤ} : Traces P (storeWord cfg w v) s := by
  unfold storeWord
  rw [traces_bind]
  refine ⟨traces_metadata, fun m s' _ => ?_⟩
  cases m.setWord cfg.disks w v <;> simp

theorem traces_setDataDisks (h : P (.dataDisks j)) : Traces P (setDataDisks cfg j v) s := by
  simp [setDataDisks, h, traces_storeWord]

theorem traces_setCopyDisks (h : P (.copyDisks j)) : Traces P (setCopyDisks cfg j v) s := by
  simp [setCopyDisks, h, traces_storeWord]

end Tables

/-! ### Block transfers -/

/-- `read_block(diskn, blockno, data)` for a block that is not the metadata block: the bytes that
arrive at `data`. -/
def readBlock (diskn : ℤ) (blockno : ℕ) : Kernel Block := do
  emit (.read diskn blockno)
  if 1 ≤ diskn ∧ diskn ≤ cfg.disks then
    if cfg.OnDisk blockno then
      let s ← get
      pure (s.disk diskn.toNat (2 * blockno), s.disk diskn.toNat (2 * blockno + 1))
    else fail (.virtioDiskIntrStatus diskn blockno)
  else fail (.noDisk diskn)

/-- The machine after block `k` of disk `d` was overwritten. -/
def Machine.setBlock (s : Machine) (d k : ℕ) (data : Block) : Machine :=
  { s with
    disk := update s.disk d
      (update (update (s.disk d) (2 * k) data.1) (2 * k + 1) data.2) }

/-- `write_block(diskn, blockno, data)` for a block that is not the metadata block. -/
def writeBlock (diskn : ℤ) (blockno : ℕ) (data : Block) : Kernel Unit := do
  emit (.write diskn blockno)
  if 1 ≤ diskn ∧ diskn ≤ cfg.disks then
    if cfg.OnDisk blockno then
      modify fun s => s.setBlock diskn.toNat blockno data
    else fail (.virtioDiskIntrStatus diskn blockno)
  else fail (.noDisk diskn)

/-- `read_block(diskn, 0, data); raid_metadata = (struct raid*)data`: the first two sectors of the
page come from the disk. -/
def readSuper (diskn : ℕ) : Kernel Unit := do
  emit (.read diskn 0)
  if 1 ≤ diskn ∧ diskn ≤ cfg.disks then
    modify fun s => { s with
      raidMetadata := some (s.super diskn)
      page := update s.page 1 (s.disk diskn 1) }
  else fail (.noDisk diskn)

/-- `write_block(diskn, 0, (uchar*)raid_metadata)`: the first two sectors of the page go to the
disk. -/
def writeSuper (diskn : ℕ) : Kernel Unit := do
  let m ← metadata
  emit (.write diskn 0)
  if 1 ≤ diskn ∧ diskn ≤ cfg.disks then
    modify fun s => { s with
      super := update s.super diskn m
      disk := update s.disk diskn (update (s.disk diskn) 1 (s.page 1)) }
  else fail (.noDisk diskn)

section Transfers

variable {cfg} {s s' : Machine} {u : Unit} {diskn : ℤ} {blockno : ℕ}

theorem returns_readBlock {b : Block} :
    Returns (readBlock cfg diskn blockno) s b s' ↔
      (1 ≤ diskn ∧ diskn ≤ cfg.disks) ∧ cfg.OnDisk blockno ∧ s' = s ∧
        b = (s.disk diskn.toNat (2 * blockno), s.disk diskn.toNat (2 * blockno + 1)) := by
  unfold readBlock
  by_cases hd : 1 ≤ diskn ∧ diskn ≤ cfg.disks
  · by_cases hk : cfg.OnDisk blockno
    · simp [hd, hk, and_comm]
    · simp [hd, hk]
  · simp [hd]

theorem returns_writeBlock {data : Block} :
    Returns (writeBlock cfg diskn blockno data) s u s' ↔
      (1 ≤ diskn ∧ diskn ≤ cfg.disks) ∧ cfg.OnDisk blockno ∧
        s' = s.setBlock diskn.toNat blockno data := by
  unfold writeBlock
  by_cases hd : 1 ≤ diskn ∧ diskn ≤ cfg.disks
  · by_cases hk : cfg.OnDisk blockno
    · simp [hd, hk]
    · simp [hd, hk]
  · simp [hd]

theorem returns_readSuper {d : ℕ} :
    Returns (readSuper cfg d) s u s' ↔ (1 ≤ d ∧ d ≤ cfg.disks) ∧
      s' = { s with
        raidMetadata := some (s.super d)
        page := update s.page 1 (s.disk d 1) } := by
  unfold readSuper
  by_cases hd : 1 ≤ d ∧ d ≤ cfg.disks <;> simp [hd]

theorem returns_writeSuper {d : ℕ} :
    Returns (writeSuper cfg d) s u s' ↔ ∃ m, s.raidMetadata = some m ∧ (1 ≤ d ∧ d ≤ cfg.disks) ∧
      s' = { s with
        super := update s.super d m
        disk := update s.disk d (update (s.disk d) 1 (s.page 1)) } := by
  unfold writeSuper
  by_cases hd : 1 ≤ d ∧ d ≤ cfg.disks <;> simp [hd]

variable {P : Access → Prop}

theorem traces_readBlock (h : P (.read diskn blockno)) :
    Traces P (readBlock cfg diskn blockno) s := by
  unfold readBlock
  simp [h, traces_ite]

theorem traces_writeBlock {data : Block} (h : P (.write diskn blockno)) :
    Traces P (writeBlock cfg diskn blockno data) s := by
  unfold writeBlock
  simp [h, traces_ite]

theorem traces_readSuper {d : ℕ} (h : P (.read d 0)) : Traces P (readSuper cfg d) s := by
  unfold readSuper
  simp [h, traces_ite]

theorem traces_writeSuper {d : ℕ} (h : P (.write d 0)) : Traces P (writeSuper cfg d) s := by
  unfold writeSuper
  simp [h, traces_ite]

end Transfers

section SetBlock

variable (s : Machine) (d k : ℕ) (data : Block)

@[simp] theorem setBlock_raidMetadata : (s.setBlock d k data).raidMetadata = s.raidMetadata := rfl

@[simp] theorem setBlock_page : (s.setBlock d k data).page = s.page := rfl

@[simp] theorem setBlock_super : (s.setBlock d k data).super = s.super := rfl

@[simp] theorem setBlock_kmem : (s.setBlock d k data).kmem = s.kmem := rfl

/-- The first half of a block after a block was written. -/
theorem setBlock_disk_fst (d' k' : ℕ) : (s.setBlock d k data).disk d' (2 * k') =
    if d' = d ∧ k' = k then data.1 else s.disk d' (2 * k') := by
  simp only [Machine.setBlock, update_apply]
  grind

/-- The second half of a block after a block was written. -/
theorem setBlock_disk_snd (d' k' : ℕ) : (s.setBlock d k data).disk d' (2 * k' + 1) =
    if d' = d ∧ k' = k then data.2 else s.disk d' (2 * k' + 1) := by
  simp only [Machine.setBlock, update_apply]
  grind

end SetBlock

/-! ### Pages and cache slots -/

/-- A page filled with one byte. -/
def filled (b : ℕ) : ℕ → Sector := fun _ _ => Bits.ofNat 8 b

/-- `kalloc()`, which fills the page with the byte `5`. -/
def kalloc : Kernel Unit :=
  modify fun s => { s with page := filled 5, pages := s.pages + 1 }

/-- `kfree()` of the page of `raid_metadata`. -/
def kfree : Kernel Unit :=
  modify fun s => { s with page := filled 1, pages := s.pages - 1 }

/-- The sector of the page that `cached_data_disks[i]` points to, for an access of `len` bytes. -/
def slotSector (i : ℤ) (len : ℕ) : Kernel ℕ :=
  if 0 ≤ i ∧ i < cfg.disks ∧ (i.toNat + 1) * blocksize + len ≤ pgsize then pure (i.toNat + 1)
  else fail (.wildSlot i)

/-- Move the bytes of a block transfer into the slot `cached_data_disks[i]`.  They cover the slot
and the sector after it. -/
def loadSlot (i : ℤ) (data : Block) : Kernel Unit := do
  let j ← slotSector cfg i bsize
  modify fun s => { s with
    page := update (update s.page j data.1) (j + 1) data.2 }

/-- The bytes that a block transfer takes from the slot `cached_data_disks[i]`: those of the slot
and of the sector after it. -/
def storeSlot (i : ℤ) : Kernel Block := do
  let j ← slotSector cfg i bsize
  let s ← get
  pure (s.page j, s.page (j + 1))

section Slots

variable {cfg} {s s' : Machine} {u : Unit} {i : ℤ}

theorem returns_slotSector {len j : ℕ} :
    Returns (slotSector cfg i len) s j s' ↔
      (0 ≤ i ∧ i < cfg.disks ∧ (i.toNat + 1) * blocksize + len ≤ pgsize) ∧
        j = i.toNat + 1 ∧ s' = s := by
  unfold slotSector
  by_cases h : 0 ≤ i ∧ i < cfg.disks ∧ (i.toNat + 1) * blocksize + len ≤ pgsize
  · simp [h]
  · rw [if_neg h]
    simp [h]

theorem returns_loadSlot {data : Block} :
    Returns (loadSlot cfg i data) s u s' ↔
      (0 ≤ i ∧ i < cfg.disks ∧ (i.toNat + 1) * blocksize + bsize ≤ pgsize) ∧
        s' = { s with
          page := update (update s.page (i.toNat + 1) data.1)
            (i.toNat + 1 + 1) data.2 } := by
  unfold loadSlot
  simp only [returns_bind, returns_slotSector, returns_modify]
  grind

theorem returns_storeSlot {data : Block} :
    Returns (storeSlot cfg i) s data s' ↔
      (0 ≤ i ∧ i < cfg.disks ∧ (i.toNat + 1) * blocksize + bsize ≤ pgsize) ∧
        s' = s ∧ data = (s.page (i.toNat + 1), s.page (i.toNat + 1 + 1)) := by
  unfold storeSlot
  simp only [returns_bind, returns_slotSector, returns_get, returns_pure]
  grind

variable {P : Access → Prop}

@[simp] theorem traces_slotSector {len : ℕ} : Traces P (slotSector cfg i len) s := by
  simp [slotSector, traces_ite]

@[simp] theorem traces_loadSlot {data : Block} : Traces P (loadSlot cfg i data) s := by
  simp [loadSlot]

@[simp] theorem traces_storeSlot : Traces P (storeSlot cfg i) s := by
  simp [storeSlot]

end Slots

end RaidSystem
