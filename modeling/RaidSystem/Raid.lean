/-
**The calls of the array: `kernel/raid.c`.**

The functions behind the seven system calls, in the order of the source, and the type `Call` of
everything that can happen to the array: the system calls of `kernel/sysraid.c`, a reboot, and
other kernel activity that changes the memory around the metadata.

A caller's buffer is given as the 1024 bytes at its physical address, or as `none` for the null
pointer; the address is taken to be mapped, with the 1024 bytes inside one page.
-/

import RaidSystem.RaidRw

set_option autoImplicit false

namespace RaidSystem

open Prog

variable (cfg : Config)

/-! ### Initialisation -/

/-- `num_of_disks * (DISK_SIZE/BLOCKSIZE - 1)`, in 32-bit unsigned arithmetic. -/
def capacity (numOfDisks : ℕ) : ℕ := numOfDisks * (cfg.diskSize / blocksize - 1) % 2 ^ 32

/-- The part of `init_raid` that every type shares. -/
def initCommon (raid : RaidType) (m : Raid) : Raid :=
  { m with
    raidInitialized := true
    type := raid
    blockSize := blocksize
    numOfDisks := cfg.disks
    numDeadDisks := 0
    reserveDisk := -1
    maxBlocks := capacity cfg cfg.disks }

/-- The assignments to scalar fields in the branch of `RAID1` and `RAID0_1`. -/
def initMirrorFields (m : Raid) : Raid :=
  { m with
    numOfDisks := cfg.disks / 2
    reserveDisk := if cfg.disks % 2 = 0 then -1 else cfg.disks
    maxDeadDisks := cfg.disks / 2 + 1 + (if cfg.disks % 2 = 0 then 0 else 1)
    maxBlocks := capacity cfg (cfg.disks / 2) }

/-- The branch of `RAID1`, into which that of `RAID0_1` falls through. -/
def initMirror : Kernel Unit := do
  setMetadata (initMirrorFields cfg)
  forRange (fun i => do
    setDataDisks cfg i (i + 1)
    setCopyDisks cfg i (i + 1 + (cfg.disks / 2 : ℕ))) 0 (cfg.disks / 2)

/-- The `switch` of `init_raid`. -/
def initType : RaidType → Kernel Unit
  | .RAID0_1 => do
    setMetadata fun m => { m with stripeCursor := -1 }
    initMirror cfg
  | .RAID1 => initMirror cfg
  | .RAID4 => setMetadata fun m =>
    { m with maxDeadDisks := 2, parityDisk := cfg.disks - 1, numOfDisks := m.numOfDisks - 1 }
  | .RAID5 => setMetadata fun m => { m with maxDeadDisks := 2 }
  | .RAID0 => pure ()
  | .other _ => pure ()

def initRaid (raid : RaidType) : Kernel ℤ := do
  fetch cfg
  setMetadata (initCommon cfg raid)
  initType cfg raid
  forRange (writeSuper cfg) 1 cfg.disks
  pure 0

/-! ### Access -/

/-- The table `raid_rw`, and a call through it. -/
def raidRw (index blkn : ℕ) (paddrData : Block) : Kernel (ℤ × Block) := do
  emit (.raidRw index)
  match index with
  | 0 => readRaid0 cfg blkn paddrData
  | 1 => writeRaid0 cfg blkn paddrData
  | 2 => readRaid1 cfg blkn paddrData
  | 3 => writeRaid1 cfg blkn paddrData
  | 4 => readRaid01 cfg blkn paddrData
  | 5 => writeRaid01 cfg blkn paddrData
  | 6 => readRaid4 cfg blkn paddrData
  | 7 => writeRaid4 cfg blkn paddrData
  | 8 => readRaid5 cfg blkn paddrData
  | 9 => writeRaid5 cfg blkn paddrData
  | _ => fail (.raidRw index)

/-- The guard of `read_raid` and `write_raid` on the block number. -/
def Raid.Accepts (m : Raid) (blkn : ℤ) : Prop :=
  m.raidInitialized = true ∧ 0 ≤ blkn ∧ blkn < m.maxBlocks

instance (m : Raid) (blkn : ℤ) : Decidable (m.Accepts blkn) :=
  inferInstanceAs (Decidable (_ ∧ _ ∧ _))

/-- What `read_raid` (`odd = 0`) and `write_raid` (`odd = 1`) have in common: the guard, and the
call through entry `(type << 1) + odd` of the table.  The shift is one of 32-bit numbers. -/
def accessRaid (odd : ℕ) (blkn : ℤ) (vaddrData : Option Block) : Kernel (ℤ × Option Block) := do
  let s ← get
  match s.raidMetadata, vaddrData with
  | some m, some paddrData =>
    if m.Accepts blkn then
      let r ← raidRw cfg (m.type.code * 2 % 2 ^ 32 + odd) blkn.toNat paddrData
      pure (r.1, some r.2)
    else pure (-1, vaddrData)
  | _, _ => pure (-1, vaddrData)

def readRaid (blkn : ℤ) (vaddrData : Option Block) : Kernel (ℤ × Option Block) :=
  accessRaid cfg 0 blkn vaddrData

def writeRaid (blkn : ℤ) (vaddrData : Option Block) : Kernel (ℤ × Option Block) :=
  accessRaid cfg 1 blkn vaddrData

/-- `info_raid`: the code, and the numbers stored at the three addresses. -/
def infoRaid : Kernel (ℤ × Option (ℕ × ℕ × ℕ)) := do
  fetch cfg
  let m ← metadata
  if m.raidInitialized then pure (0, some (m.maxBlocks, m.blockSize, m.numOfDisks))
  else pure (-1, none)

/-! ### Failure and repair -/

/-- `x + 1` for an `uint`. -/
def uintSucc (x : ℕ) : ℕ := (x + 1) % 2 ^ 32

/-- `x - 1` for an `uint`. -/
def uintPred (x : ℕ) : ℕ := if x = 0 then 2 ^ 32 - 1 else x - 1

/-- Search a table for the last of the `k` entries from `i` on that equals `v`; `acc` is the
answer so far. -/
def findLast (entry : ℤ → Kernel ℤ) (v : ℤ) : ℕ → ℕ → ℤ → Kernel ℤ
  | _, 0, acc => pure acc
  | i, k + 1, acc => do
    let w ← entry i
    findLast entry v (i + 1) k (if w = v then i else acc)

/-- Search a table for the first of the `k` entries from `i` on that is `-1`. -/
def findHole (entry : ℤ → Kernel ℤ) : ℕ → ℕ → Kernel (Option ℕ)
  | _, 0 => pure none
  | i, k + 1 => do
    let w ← entry i
    if w = -1 then pure (some i) else findHole entry (i + 1) k

/-- The branch of `disk_fail_raid` that puts the reserve disk to use. -/
def failWithReserve (diskn : ℤ) (m : Raid) : Kernel Unit := do
  if diskn ≤ m.numOfDisks then
    let c ← copyDisks cfg (diskn - 1)
    setDataDisks cfg (diskn - 1) c
    setCopyDisks cfg (diskn - 1) m.reserveDisk
    setMetadata fun m => { m with reserveDisk := 0 }
  else
    setCopyDisks cfg (cfg.disks - diskn) m.reserveDisk
    setMetadata fun m => { m with reserveDisk := 0 }

/-- The branch of `disk_fail_raid` without a reserve disk: the copy replaces a lost primary. -/
def failWithoutReserve (diskn : ℤ) (m : Raid) : Kernel Unit := do
  let primary ← findLast (dataDisks cfg) diskn 0 m.numOfDisks (-1)
  if primary ≠ -1 then
    let c ← copyDisks cfg primary
    setDataDisks cfg primary c
    setCopyDisks cfg primary (-1)
  else
    let copy ← findLast (copyDisks cfg) diskn 0 m.numOfDisks (-1)
    setCopyDisks cfg copy (-1)

/-- What `disk_fail_raid` does to the roles of the disks. -/
def failRoles (diskn : ℤ) : Kernel Unit := do
  let m ← metadata
  if m.type.plain then pure ()
  else if m.reserveDisk ≠ -1 ∧ m.reserveDisk ≠ 0 then failWithReserve cfg diskn m
  else failWithoutReserve cfg diskn m

def diskFailRaid (diskn : ℤ) : Kernel ℤ := do
  let r ← ready
  if !r ∨ diskn < 1 ∨ cfg.disks < diskn then pure (-1)
  else if ← dead cfg (diskn - 1) then pure 0
  else
    setMetadata fun m => { m with
      diskState := Function.update m.diskState (diskn - 1).toNat .DEAD
      numDeadDisks := uintSucc m.numDeadDisks }
    failRoles cfg diskn
    writeback cfg
    pure 0

/-- What `disk_repaired_raid` does to the roles of the disks. -/
def repairRoles (diskn : ℤ) : Kernel Unit := do
  let m ← metadata
  if m.type.plain then pure ()
  else
    match ← findHole (dataDisks cfg) 0 m.numOfDisks with
    | some i => setDataDisks cfg i diskn
    | none =>
      match ← findHole (copyDisks cfg) 0 m.numOfDisks with
      | some i => setCopyDisks cfg i diskn
      | none => setMetadata fun m => { m with reserveDisk := diskn }

def diskRepairedRaid (diskn : ℤ) : Kernel ℤ := do
  let r ← ready
  if !r ∨ diskn < 1 ∨ cfg.disks < diskn then pure (-1)
  else if ← dead cfg (diskn - 1) then
    setMetadata fun m => { m with
      diskState := Function.update m.diskState (diskn - 1).toNat .REPAIRED
      numDeadDisks := uintPred m.numDeadDisks }
    repairRoles cfg diskn
    writeback cfg
    pure 0
  else pure 0

/-! ### Destruction -/

def destroyRaid : Kernel ℤ := do
  ifFalse ready do
    kalloc
    readSuper cfg 1
  if ← ready then
    modify fun s => { s with raidMetadata := some Raid.zero, page := filled 0 }
    writeback cfg
    kfree
    modify fun s => { s with raidMetadata := none }
    pure 0
  else pure 0

/-! ### Everything that can happen -/

/-- The system calls, a reboot, and other kernel activity. -/
inductive Call
  | initRaid (raid : ℤ)
  | readRaid (blkn : ℤ) (data : Option Block)
  | writeRaid (blkn : ℤ) (data : Option Block)
  | infoRaid
  | diskFailRaid (diskn : ℤ)
  | diskRepairedRaid (diskn : ℤ)
  | destroyRaid
  /-- Memory is lost; the disks keep their contents. -/
  | reboot
  /-- The rest of the kernel changes the memory around the structure. -/
  | elsewhere (kmem : ℤ → ℤ)

/-- What a caller gets to see: the code, the buffer, and the answers of `info_raid`. -/
structure Reply where
  code : ℤ
  data : Option Block := none
  info : Option (ℕ × ℕ × ℕ) := none

/-- One event. -/
def exec : Call → Kernel Reply
  | .initRaid raid => do return { code := ← initRaid cfg (.ofInt raid) }
  | .readRaid blkn data => do
    let r ← readRaid cfg blkn data
    return { code := r.1, data := r.2 }
  | .writeRaid blkn data => do
    let r ← writeRaid cfg blkn data
    return { code := r.1, data := r.2 }
  | .infoRaid => do
    let r ← infoRaid cfg
    return { code := r.1, info := r.2 }
  | .diskFailRaid diskn => do return { code := ← diskFailRaid cfg diskn }
  | .diskRepairedRaid diskn => do return { code := ← diskRepairedRaid cfg diskn }
  | .destroyRaid => do return { code := ← destroyRaid cfg }
  | .reboot => do
    modify fun s => { s with raidMetadata := none, pages := 0 }
    return { code := 0 }
  | .elsewhere kmem => do
    modify fun s => { s with kmem := kmem }
    return { code := 0 }

end RaidSystem
