/-
**Reading and writing the array: `kernel/raid_rw.c`.**

The functions of `kernel/raid_rw.c`, in the order of the source.  The address computation at the
head of each of the ten access functions is a definition of its own (`readRaid0Addr` and so on),
so that the reader and the writer of a type can be compared.

Two pairs of functions differ only in those addresses: after them, `read_raid4` and `read_raid5`
continue with the same text, and so do `write_raid4` and `write_raid5`.  That text is `readStripe`
and `writeStripe`.  Likewise `read_raid1` and `read_raid01` are `readMirror`, and `write_raid1`
and `write_raid01` are `writeMirror`.

* `fetch`, `writeback` — loading the metadata from the disks and saving it to them;
* `cache` — loading a stripe into the cache slots;
* `raidTocacheRecovery`, `raidWriteUpdateparityCache` — rebuilding a slot, and writing one while
  keeping the parity slot up to date;
* `readRaid0`, …, `writeRaid5` — the access functions.  They take the logical block number and the
  1024 bytes at the physical address of the caller's buffer, and return the code and what those
  bytes are afterwards.
-/

import RaidSystem.Machine

set_option autoImplicit false

namespace RaidSystem

open Prog Function

variable (cfg : Config)

/-! ### Helpers -/

/-- The loop of `fetch`: read the copy of disk `i`, and go on to the next disk as long as the copy
at hand calls `disk_state[i]` dead. -/
def fetchLoop : ℕ → ℕ → Kernel Unit
  | _, 0 => pure ()
  | i, k + 1 => do
    readSuper cfg i
    if ← dead cfg i then fetchLoop (i + 1) k else pure ()

def fetch : Kernel Unit := do
  if ← ready then pure ()
  else
    kalloc
    modify fun s => { s with page := filled 0 }
    fetchLoop cfg 1 cfg.disks
    setMetadata fun m => { m with stripe := -1, parityCached := -1 }

def writeback : Kernel Unit :=
  forRange (fun i => ifFalse (dead cfg (i - 1)) (writeSuper cfg i)) 1 cfg.disks

/-- `read_block(i + 1, stripe, cached_data_disks[i])`, unless the disk is dead. -/
def cacheDisk (stripe : ℕ) (i : ℤ) : Kernel Unit :=
  ifFalse (dead cfg i) do
    let b ← readBlock cfg (i + 1) stripe
    loadSlot cfg i b

def cache (stripe : ℕ) (parityDisk : ℤ) : Kernel Unit := do
  setMetadata fun m => { m with stripe := stripe }
  let m ← metadata
  forRange (fun i => cacheDisk cfg stripe (i - 1)) 1 m.numOfDisks
  setMetadata fun m => { m with parityCached := parityDisk, parityDisk := parityDisk }
  cacheDisk cfg stripe parityDisk

/-- `for(int i = 0; i < BLOCKSIZE; ++i)`: the body sees, and updates, byte `i` of every sector. -/
def forBytes (body : Fin blocksize → (ℕ → Byte) → ℕ → Byte) (page : ℕ → Sector) : ℕ → Sector :=
  fun j i => body i (fun l => page l i) j

/-- The body of `raid_tocache_recovery` for the slots `1, …, n`: clear byte `d`, add the bytes of
the other slots to it, and that of the slot `parity`, when it is not one of these. -/
def recoverByte (d n : ℕ) (parity : Option ℕ) (col : ℕ → Byte) : ℕ → Byte :=
  let cleared := update col d 0
  let added := (List.range' 1 n).foldl
    (fun (c : ℕ → Byte) j => if d = j then c else update c d (c d ^^^ c j)) cleared
  match parity with
  | some p => update added d (added d ^^^ added p)
  | none => added

def raidTocacheRecovery (diskn : ℕ) : Kernel Unit := do
  let m ← metadata
  let d ← slotSector cfg (diskn - 1) blocksize
  let n ← slotSector cfg (m.numOfDisks - 1) blocksize
  if m.type = .RAID4 then
    let p ← slotSector cfg m.parityDisk blocksize
    modify fun s => { s with page := forBytes (fun _ => recoverByte d n (some p)) s.page }
  else
    modify fun s => { s with page := forBytes (fun _ => recoverByte d n none) s.page }

/-- The body of the loop of `raid_write_updateparity_cache`. -/
def updateByte (p d : ℕ) (new : Byte) (col : ℕ → Byte) : ℕ → Byte :=
  let c₁ := update col p (col p ^^^ col d)
  let c₂ := update c₁ d new
  update c₂ p (c₂ p ^^^ c₂ d)

/-- `write_block(i + 1, stripe, cached_data_disks[i])`, unless the disk is dead. -/
def syncDisk (stripe : ℕ) (i : ℤ) : Kernel Unit :=
  ifFalse (dead cfg i) do
    let b ← storeSlot cfg i
    writeBlock cfg (i + 1) stripe b

def raidWriteUpdateparityCache (diskn : ℕ) (paddrData : Sector) : Kernel Unit := do
  let m ← metadata
  let p ← slotSector cfg m.parityCached blocksize
  let d ← slotSector cfg (diskn - 1) blocksize
  modify fun s => { s with page := forBytes (fun i => updateByte p d (paddrData i)) s.page }
  syncDisk cfg m.stripe.toNat m.parityCached
  syncDisk cfg m.stripe.toNat (diskn - 1)

/-! ### RAID 0 -/

/-- `diskn` and `blkn` of `read_raid0`. -/
def readRaid0Addr (n blkn : ℕ) : ℕ × ℕ := (blkn % n + 1, blkn / n + 1)

def readRaid0 (blkn : ℕ) (paddrData : Block) : Kernel (ℤ × Block) := do
  let m ← metadata
  divisor m.numOfDisks
  let (diskn, blkn) := readRaid0Addr m.numOfDisks blkn
  if ← dead cfg (diskn - 1) then pure (-1, paddrData)
  else
    let b ← readBlock cfg diskn blkn
    pure (0, b)

/-- `diskn` and `blkn` of `write_raid0`. -/
def writeRaid0Addr (n blkn : ℕ) : ℕ × ℕ := (blkn % n + 1, blkn / n + 1)

def writeRaid0 (blkn : ℕ) (paddrData : Block) : Kernel (ℤ × Block) := do
  let m ← metadata
  divisor m.numOfDisks
  let (diskn, blkn) := writeRaid0Addr m.numOfDisks blkn
  -- the source tests the state at the index `blkn - 1`, not `diskn - 1`
  if ← dead cfg (blkn - 1) then pure (-1, paddrData)
  else
    writeBlock cfg diskn blkn paddrData
    pure (0, paddrData)

/-! ### RAID 1 and RAID 0+1 -/

/-- What `read_raid1` and `read_raid01` do once the column and the block are known. -/
def readMirror (diskIndex blkn : ℕ) (paddrData : Block) : Kernel (ℤ × Block) := do
  let diskn ← dataDisks cfg diskIndex
  let copyDiskn ← copyDisks cfg diskIndex
  if ← dead cfg (diskn - 1) then
    if ← dead cfg (copyDiskn - 1) then pure (-1, paddrData)
    else
      let b ← readBlock cfg copyDiskn blkn
      pure (0, b)
  else
    let b ← readBlock cfg diskn blkn
    pure (0, b)

/-- Write a block unless its disk is dead; the answer is the `flag` of the source. -/
def writeUnlessDead (diskn : ℤ) (blkn : ℕ) (paddrData : Block) : Kernel Bool := do
  if ← dead cfg (diskn - 1) then pure false
  else
    writeBlock cfg diskn blkn paddrData
    pure true

/-- What `write_raid1` and `write_raid01` do once the column and the block are known. -/
def writeMirror (diskIndex blkn : ℕ) (paddrData : Block) : Kernel (ℤ × Block) := do
  let diskn ← dataDisks cfg diskIndex
  let copyDiskn ← copyDisks cfg diskIndex
  let flag₁ ← writeUnlessDead cfg diskn blkn paddrData
  let flag₂ ← writeUnlessDead cfg copyDiskn blkn paddrData
  pure (if flag₁ || flag₂ then 0 else -1, paddrData)

/-- `disk_index` and `blkn` of `read_raid1`. -/
def readRaid1Addr (n blkn : ℕ) : ℕ × ℕ := (blkn % n, blkn / n + 1)

def readRaid1 (blkn : ℕ) (paddrData : Block) : Kernel (ℤ × Block) := do
  let m ← metadata
  divisor m.numOfDisks
  let (diskIndex, blkn) := readRaid1Addr m.numOfDisks blkn
  readMirror cfg diskIndex blkn paddrData

/-- `disk_index` and `blkn` of `write_raid1`. -/
def writeRaid1Addr (n blkn : ℕ) : ℕ × ℕ := (blkn % n, blkn / n + 1)

def writeRaid1 (blkn : ℕ) (paddrData : Block) : Kernel (ℤ × Block) := do
  let m ← metadata
  divisor m.numOfDisks
  let (diskIndex, blkn) := writeRaid1Addr m.numOfDisks blkn
  writeMirror cfg diskIndex blkn paddrData

/-- `disk_index` and `blkn` of `read_raid01`. -/
def readRaid01Addr (n blkn : ℕ) : ℕ × ℕ := (blkn % n, blkn / n + 1)

def readRaid01 (blkn : ℕ) (paddrData : Block) : Kernel (ℤ × Block) := do
  let m ← metadata
  divisor m.numOfDisks
  let (diskIndex, blkn) := readRaid01Addr m.numOfDisks blkn
  readMirror cfg diskIndex blkn paddrData

/-- `disk_index` and `blkn` of `write_raid01`. -/
def writeRaid01Addr (n blkn : ℕ) : ℕ × ℕ := (blkn % n, blkn / n + 1)

def writeRaid01 (blkn : ℕ) (paddrData : Block) : Kernel (ℤ × Block) := do
  let m ← metadata
  divisor m.numOfDisks
  let (diskIndex, blkn) := writeRaid01Addr m.numOfDisks blkn
  writeMirror cfg diskIndex blkn paddrData

/-! ### RAID 4 and RAID 5 -/

/-- `memmove(paddr_data, cached_data_disks[diskn-1], BLOCKSIZE)`: the first 512 bytes of the
caller's buffer become those of the slot. -/
def copyOut (diskn : ℕ) (paddrData : Block) : Kernel (ℤ × Block) := do
  let d ← slotSector cfg (diskn - 1) blocksize
  let s ← get
  pure (0, (s.page d, paddrData.2))

/-- What `read_raid4` and `read_raid5` do once the data disk, the stripe and the parity disk of
the stripe are known. -/
def readStripe (diskn stripe : ℕ) (parityDisk : ℤ) (paddrData : Block) : Kernel (ℤ × Block) := do
  let m ← metadata
  if m.stripe = stripe then
    ifTrue (dead cfg (diskn - 1)) (raidTocacheRecovery cfg diskn)
    copyOut cfg diskn paddrData
  else
    cache cfg stripe parityDisk
    ifTrue (dead cfg (diskn - 1)) (raidTocacheRecovery cfg diskn)
    copyOut cfg diskn paddrData

/-- What `write_raid4` and `write_raid5` do once the data disk, the stripe and the parity disk of
the stripe are known. -/
def writeStripe (diskn stripe : ℕ) (parityDisk : ℤ) (paddrData : Block) : Kernel (ℤ × Block) := do
  let m ← metadata
  if m.stripe = stripe then
    -- a hit goes straight to the update, also when the disk is dead
    raidWriteUpdateparityCache cfg diskn paddrData.1
    pure (0, paddrData)
  else
    cache cfg stripe parityDisk
    ifTrue (dead cfg (diskn - 1)) (raidTocacheRecovery cfg diskn)
    raidWriteUpdateparityCache cfg diskn paddrData.1
    pure (0, paddrData)

/-- `diskn` and `stripe` of `read_raid4`. -/
def readRaid4Addr (n blkn : ℕ) : ℕ × ℕ := (blkn % n + 1, blkn / n + 1)

def readRaid4 (blkn : ℕ) (paddrData : Block) : Kernel (ℤ × Block) := do
  let m ← metadata
  if m.maxDeadDisks ≤ m.numDeadDisks then pure (-1, paddrData)
  else
    divisor m.numOfDisks
    let (diskn, stripe) := readRaid4Addr m.numOfDisks blkn
    readStripe cfg diskn stripe m.parityDisk paddrData

/-- `diskn` and `stripe` of `write_raid4`. -/
def writeRaid4Addr (n blkn : ℕ) : ℕ × ℕ := (blkn % n + 1, blkn / n + 1)

def writeRaid4 (blkn : ℕ) (paddrData : Block) : Kernel (ℤ × Block) := do
  let m ← metadata
  if m.maxDeadDisks ≤ m.numDeadDisks then pure (-1, paddrData)
  else
    divisor m.numOfDisks
    let (diskn, stripe) := writeRaid4Addr m.numOfDisks blkn
    writeStripe cfg diskn stripe m.parityDisk paddrData

/-- `data_diskn`, `parity_diskn` and `stripe` of `read_raid5`. -/
def readRaid5Addr (n blkn : ℕ) : ℕ × ℕ × ℕ :=
  let stripe := blkn / (n - 1) + 1
  let parityDiskn := n - (stripe - 1) % n
  let dataDiskn := (parityDiskn + blkn % (n - 1)) % n + 1
  (dataDiskn, parityDiskn, stripe)

def readRaid5 (blkn : ℕ) (paddrData : Block) : Kernel (ℤ × Block) := do
  let m ← metadata
  if m.maxDeadDisks ≤ m.numDeadDisks then pure (-1, paddrData)
  else
    divisor (m.numOfDisks - 1)
    divisor m.numOfDisks
    let (dataDiskn, parityDiskn, stripe) := readRaid5Addr m.numOfDisks blkn
    readStripe cfg dataDiskn stripe (parityDiskn - 1) paddrData

/-- `data_diskn`, `parity_diskn` and `stripe` of `write_raid5`. -/
def writeRaid5Addr (n blkn : ℕ) : ℕ × ℕ × ℕ :=
  let stripe := blkn / (n - 1) + 1
  let parityDiskn := n - (stripe - 1) % n
  let dataDiskn := (parityDiskn + blkn % (n - 1)) % n + 1
  (dataDiskn, parityDiskn, stripe)

def writeRaid5 (blkn : ℕ) (paddrData : Block) : Kernel (ℤ × Block) := do
  let m ← metadata
  if m.maxDeadDisks ≤ m.numDeadDisks then pure (-1, paddrData)
  else
    divisor (m.numOfDisks - 1)
    divisor m.numOfDisks
    let (dataDiskn, parityDiskn, stripe) := writeRaid5Addr m.numOfDisks blkn
    writeStripe cfg dataDiskn stripe (parityDiskn - 1) paddrData

end RaidSystem
