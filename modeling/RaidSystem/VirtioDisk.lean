/-
**The disk driver: `kernel/virtio_disk.c`.**

One disk, its device, and any number of processes that transfer blocks.  The driver keeps a table of
`NUM` descriptors, of which a request takes three, linked by `next`; it passes the first of the
three to the device through the `avail` ring, and gets it back through the `used` ring when the
device is done.  The process sleeps meanwhile.  `RaidSystem/Machine.lean` takes a transfer for one
step; here it is a sequence of steps of three parties.

A step is an `Action`: a process runs up to the next point where it lets go of `vdisk_lock`, the
device takes a request from the ring, moves its data or reports it done, the interrupt handler takes
the lock, does one round of its loop or leaves, or some process is killed.  Between the allocation
of descriptors and the notification of the device a process holds the lock and the device may act,
so these are two steps.

* `Disk`, `Buf` — `struct disk` and `struct buf`;
* `Device`, `Request` — what the device has read from the rings and not reported yet;
* `Proc`, `Frame` — where a process is in `virtio_disk_rw`, and its local variables there;
* `allocDesc`, `freeDesc`, `freeChain`, `alloc3Desc` — the descriptor table;
* `virtioDiskRwAlloc`, `virtioDiskRwSubmit`, `virtioDiskRwFinish` — `virtio_disk_rw` from one
  sleeping point to the next;
* `virtioDiskIntrRound` — a round of the loop of `virtio_disk_intr`;
* `exec` — **the steps of the system**.

Indices of the rings are 16-bit numbers.  A process that neither sleeps nor holds the lock can be
run whenever the lock is free.
-/

import RaidSystem.Machine
import RaidSystem.Reach
import RaidSystem.RingQueue

set_option autoImplicit false

namespace RaidSystem.Virtio

open Prog Function

/-! ### Memory shared with the device -/

/-- `NUM`: the number of descriptors, and of entries of a ring. -/
abbrev num : ℕ := 16

/-- The ring indices are of type `uint16`. -/
abbrev idxSize : ℕ := 2 ^ 16

/-- `VRING_DESC_F_NEXT`. -/
abbrev descNext : ℕ := 1

/-- `VRING_DESC_F_WRITE`. -/
abbrev descWrite : ℕ := 2

/-- `VIRTIO_BLK_T_IN`. -/
abbrev blkIn : ℕ := 0

/-- `VIRTIO_BLK_T_OUT`. -/
abbrev blkOut : ℕ := 1

/-- The addresses that a descriptor holds. -/
inductive Pointer
  | null
  /-- `&disk.ops[i]`. -/
  | ops (i : ℕ)
  /-- `b->data`. -/
  | data (b : ℕ)
  /-- `&disk.info[i].status`. -/
  | status (i : ℕ)
deriving DecidableEq

/-- `struct virtq_desc`. -/
structure VirtqDesc where
  addr : Pointer
  len : ℕ
  flags : ℕ
  next : ℕ
deriving DecidableEq

/-- `struct virtq_avail` and `struct virtq_used`, as far as they are used. -/
structure Virtq where
  idx : ℕ
  ring : ℕ → ℕ

/-- `struct virtio_blk_req`. -/
structure VirtioBlkReq where
  type : ℕ
  reserved : ℕ
  sector : ℕ
deriving DecidableEq

/-- An entry of `disk.info`. -/
structure Info where
  /-- The address of a `struct buf`; `none` is the null pointer. -/
  b : Option ℕ
  status : ℕ

/-- `struct disk`. -/
structure Disk where
  desc : ℕ → VirtqDesc
  avail : Virtq
  used : Virtq
  free : ℕ → Bool
  usedIdx : ℕ
  info : ℕ → Info
  ops : ℕ → VirtioBlkReq

/-- `struct buf`, as far as the driver uses it. -/
structure Buf where
  disk : Bool
  blockno : ℕ
  data : Block

/-! ### The device and the processes -/

/-- A request that the device has read from the `avail` ring. -/
structure Request where
  /-- The first descriptor of the chain. -/
  head : ℕ
  write : Bool
  sector : ℕ
  /-- The buffer whose data are to be read or written. -/
  buf : ℕ
  /-- The entry of `info` that takes the status. -/
  status : ℕ
  /-- The data have been moved. -/
  moved : Bool

/-- The device. -/
structure Device where
  /-- The `avail` ring has been read up to here. -/
  seen : ℕ
  inflight : List Request
  /-- The sectors of the disk. -/
  sectors : ℕ → Sector

/-- What a process can sleep on in `virtio_disk_rw`. -/
inductive Chan
  /-- `&disk.free[0]`. -/
  | free
  /-- The address of a `struct buf`. -/
  | buf (b : ℕ)
deriving DecidableEq

/-- The local variables of `virtio_disk_rw`, without `idx`. -/
structure Frame where
  b : ℕ
  write : Bool
  sector : ℕ

/-- Where a process is in `virtio_disk_rw`. -/
inductive Pc
  /-- Outside. -/
  | idle
  /-- In the loop that allocates descriptors. -/
  | asking (f : Frame)
  /-- Holding the lock, with the descriptors in place. -/
  | prepared (f : Frame) (idx : ℕ → ℕ)
  /-- In `sleep(b, …)`. -/
  | waiting (f : Frame) (idx : ℕ → ℕ)

/-- A process.  It is asleep as long as it has a channel. -/
structure Proc where
  pc : Pc
  chan : Option Chan

/-- Who holds `vdisk_lock`. -/
inductive Holder
  | proc (p : ℕ)
  /-- `virtio_disk_intr`. -/
  | intr
deriving DecidableEq

/-- The state of the system. -/
structure State where
  disk : Disk
  device : Device
  bufs : ℕ → Buf
  procs : ℕ → Proc
  lock : Option Holder

/-- What stops a step. -/
inductive Stop
  /-- The step is not possible in this state. -/
  | disabled
  /-- The panic `": free_desc 1"`. -/
  | freeDesc1
  /-- The panic `": free_desc 2"`. -/
  | freeDesc2
  /-- The panic `": virtio_disk_intr status"`. -/
  | intrStatus
  /-- `virtio_disk_intr` stores through a null pointer. -/
  | nullBuf
  /-- The loop of `free_chain` was cut off. -/
  | outOfFuel
deriving DecidableEq

/-- What a step shows to the outside. -/
inductive Event
  | silent
  /-- `virtio_disk_rw` for buffer `b` returns; the data in the buffer are what `read_block` then
  copies. -/
  | returned (b head : ℕ) (data : Block)
  /-- The device has placed `head` in the `used` ring, for a request that uses buffer `b`. -/
  | completed (head b : ℕ)
  /-- `virtio_disk_intr` has found `head` in the `used` ring and has released buffer `b`. -/
  | processed (head b : ℕ)

/-- Routines of the driver, and steps of the device. -/
abbrev Driver (α : Type) := Prog State Empty Stop α

/-! ### Sleeping and waking -/

/-- `sleep(chan, &vdisk_lock)` by process `p`, which is then at `pc`. -/
def sleep (p : ℕ) (pc : Pc) (chan : Chan) : Driver Unit :=
  modify fun s => { s with
    procs := update s.procs p { pc := pc, chan := some chan }
    lock := none }

/-- The processes after `wakeup(chan)`. -/
def wake (procs : ℕ → Proc) (chan : Chan) : ℕ → Proc := fun p =>
  if (procs p).chan = some chan then { procs p with chan := none } else procs p

def wakeup (chan : Chan) : Driver Unit :=
  modify fun s => { s with procs := wake s.procs chan }

/-- `kill(p)`: the process is made runnable if it sleeps. -/
def kill (p : ℕ) : Driver Unit :=
  modify fun s => { s with procs := update s.procs p { s.procs p with chan := none } }

/-! ### Descriptors -/

/-- The loop of `alloc_desc`, from descriptor `i` on. -/
def allocDescFrom : ℕ → ℕ → Driver (Option ℕ)
  | _, 0 => pure none
  | i, k + 1 => do
    let s ← get
    if s.disk.free i then
      modify fun s => { s with disk := { s.disk with free := update s.disk.free i false } }
      pure (some i)
    else allocDescFrom (i + 1) k

def allocDesc : Driver (Option ℕ) := allocDescFrom 0 num

/-- Clear descriptor `i` and mark it free. -/
def Disk.release (d : Disk) (i : ℕ) : Disk :=
  { d with
    desc := update d.desc i { addr := .null, len := 0, flags := 0, next := 0 }
    free := update d.free i true }

def freeDesc (i : ℕ) : Driver Unit := do
  if num ≤ i then fail .freeDesc1
  else
    let s ← get
    if s.disk.free i then fail .freeDesc2
    else
      modify fun s => { s with disk := s.disk.release i }
      wakeup .free

/-- The loop of `free_chain`.  A round that does not panic makes a descriptor free, so `num + 1`
rounds are enough. -/
def freeChainLoop : ℕ → ℕ → Driver Unit
  | 0, _ => fail .outOfFuel
  | fuel + 1, i => do
    let s ← get
    freeDesc i
    if (s.disk.desc i).flags.testBit 0 then freeChainLoop fuel (s.disk.desc i).next else pure ()

def freeChain (i : ℕ) : Driver Unit := freeChainLoop (num + 1) i

/-- The loop of `alloc3_desc`, with `i` entries of `idx` filled and `k` to go. -/
def alloc3Loop (idx : ℕ → ℕ) (i : ℕ) : ℕ → Driver (Option (ℕ → ℕ))
  | 0 => pure (some idx)
  | k + 1 => do
    match ← allocDesc with
    | some d => alloc3Loop (update idx i d) (i + 1) k
    | none =>
      forRange (fun j => freeDesc (idx j)) 0 i
      pure none

def alloc3Desc : Driver (Option (ℕ → ℕ)) := alloc3Loop (fun _ => 0) 0 3

/-! ### Transfers -/

/-- A call of `virtio_disk_rw`, with what the caller has put into the buffer before. -/
structure Rw where
  b : ℕ
  blockno : ℕ
  /-- The data to write; `none` for a read. -/
  data : Option Block

/-- `b->blockno * (BSIZE / 512)`, a product of 32-bit numbers. -/
def sectorOf (blockno : ℕ) : ℕ := blockno * (bsize / 512) % 2 ^ 32

/-- The local variables of a call. -/
def Rw.frame (c : Rw) : Frame where
  b := c.b
  write := c.data.isSome
  sector := sectorOf c.blockno

/-- What the caller does before: store the block number, and the data if they are to be written. -/
def Rw.fill (c : Rw) (bufs : ℕ → Buf) : ℕ → Buf :=
  update bufs c.b { bufs c.b with
    blockno := c.blockno
    data := c.data.getD (bufs c.b).data }

/-- The three descriptors and the entries of `ops` and `info`, as `virtio_disk_rw` fills them. -/
def Disk.format (d : Disk) (f : Frame) (idx : ℕ → ℕ) : Disk :=
  { d with
    ops := update d.ops (idx 0)
      { type := if f.write then blkOut else blkIn, reserved := 0, sector := f.sector }
    desc := update (update (update d.desc
      (idx 0) { addr := .ops (idx 0), len := 16, flags := descNext, next := idx 1 })
      (idx 1) { addr := .data f.b, len := bsize,
                flags := (if f.write then 0 else descWrite) ||| descNext, next := idx 2 })
      (idx 2) { addr := .status (idx 0), len := 1, flags := descWrite, next := 0 }
    info := update d.info (idx 0) { b := some f.b, status := 0xff } }

/-- `virtio_disk_rw` from the start of the loop that allocates the descriptors. -/
def virtioDiskRwAlloc (p : ℕ) (f : Frame) : Driver Event := do
  match ← alloc3Desc with
  | none =>
    sleep p (.asking f) .free
    pure .silent
  | some idx =>
    modify fun s => { s with
      disk := s.disk.format f idx
      bufs := update s.bufs f.b { s.bufs f.b with disk := true }
      procs := update s.procs p { pc := .prepared f idx, chan := none }
      lock := some (.proc p) }
    pure .silent

/-- `virtio_disk_rw` from the store to the `avail` ring up to `sleep(b, …)`. -/
def virtioDiskRwSubmit (p : ℕ) (f : Frame) (idx : ℕ → ℕ) : Driver Event := do
  modify fun s => { s with
    disk := { s.disk with
      avail := {
        idx := (s.disk.avail.idx + 1) % idxSize
        ring := update s.disk.avail.ring (s.disk.avail.idx % num) (idx 0) } } }
  sleep p (.waiting f idx) (.buf f.b)
  pure .silent

/-- `virtio_disk_rw` after `sleep(b, …)`. -/
def virtioDiskRwFinish (p : ℕ) (f : Frame) (idx : ℕ → ℕ) : Driver Event := do
  modify fun s => { s with
    disk := { s.disk with
      info := update s.disk.info (idx 0) { s.disk.info (idx 0) with b := none } } }
  freeChain (idx 0)
  let s ← get
  modify fun s => { s with procs := update s.procs p { pc := .idle, chan := none } }
  pure (.returned f.b (idx 0) (s.bufs f.b).data)

/-- Process `p` makes a call. -/
def call (p : ℕ) (c : Rw) : Driver Event := do
  let s ← get
  match s.lock, (s.procs p).pc with
  | none, .idle =>
    modify fun s => { s with bufs := c.fill s.bufs }
    virtioDiskRwAlloc p c.frame
  | _, _ => fail .disabled

/-- Process `p` goes on with its call. -/
def run (p : ℕ) : Driver Event := do
  let s ← get
  match (s.procs p).pc, (s.procs p).chan, s.lock with
  | .asking f, none, none => virtioDiskRwAlloc p f
  | .prepared f idx, none, some (.proc q) =>
    if q = p then virtioDiskRwSubmit p f idx else fail .disabled
  | .waiting f idx, none, none => virtioDiskRwFinish p f idx
  | _, _, _ => fail .disabled

/-! ### The device -/

/-- What the device reads from the chain at `head`; `none` if it is not a chain of a request. -/
def Disk.readChain (d : Disk) (head : ℕ) : Option Request :=
  let d₀ := d.desc head
  let d₁ := d.desc d₀.next
  let d₂ := d.desc d₁.next
  match d₀.addr, d₁.addr, d₂.addr with
  | .ops i, .data b, .status j =>
    let write := (d.ops i).type == blkOut
    if d₀.flags.testBit 0 && d₁.flags.testBit 0 && (d₁.flags.testBit 1 == !write) &&
        d₁.len == bsize && d₂.flags.testBit 1 then
      some { head := head, write := write, sector := (d.ops i).sector, buf := b, status := j,
             moved := false }
    else none
  | _, _, _ => none

/-- The device takes the next request from the `avail` ring. -/
def fetch : Driver Event := do
  let s ← get
  if s.device.seen = s.disk.avail.idx then fail .disabled
  else
    match s.disk.readChain (s.disk.avail.ring (s.device.seen % num)) with
    | none => fail .disabled
    | some r =>
      modify fun s => { s with
        device := { s.device with
          seen := (s.device.seen + 1) % idxSize
          inflight := s.device.inflight ++ [r] } }
      pure .silent

/-- The sectors after storing a block. -/
def storeBlock (sectors : ℕ → Sector) (sector : ℕ) (x : Block) : ℕ → Sector :=
  update (update sectors sector x.1) (sector + 1) x.2

/-- The data of request `r` are moved between the buffer and the disk. -/
def State.move (s : State) (r : Request) : State :=
  if r.write then
    { s with device := { s.device with
        sectors := storeBlock s.device.sectors r.sector (s.bufs r.buf).data } }
  else
    { s with bufs := update s.bufs r.buf { s.bufs r.buf with
        data := (s.device.sectors r.sector, s.device.sectors (r.sector + 1)) } }

/-- The device moves the data of a request, once. -/
def transfer (n : ℕ) : Driver Event := do
  let s ← get
  match s.device.inflight[n]? with
  | none => fail .disabled
  | some r =>
    if r.moved then fail .disabled
    else
      modify fun s => s.move r
      modify fun s => { s with device := { s.device with
        inflight := s.device.inflight.set n { r with moved := true } } }
      pure .silent

/-- The device reports a request: as done, if the data have been moved, or as failed. -/
def complete (n : ℕ) (success : Bool) : Driver Event := do
  let s ← get
  match s.device.inflight[n]? with
  | none => fail .disabled
  | some r =>
    if success && !r.moved then fail .disabled
    else
      modify fun s => { s with
        disk := { s.disk with
          info := update s.disk.info r.status
            { s.disk.info r.status with status := if success then 0 else 1 }
          used := {
            idx := (s.disk.used.idx + 1) % idxSize
            ring := update s.disk.used.ring (s.disk.used.idx % num) r.head } }
        device := { s.device with inflight := s.device.inflight.eraseIdx n } }
      pure (.completed r.head r.buf)

/-! ### The interrupt handler -/

/-- `virtio_disk_intr` up to its loop. -/
def virtioDiskIntrEnter : Driver Event := do
  let s ← get
  match s.lock with
  | none =>
    modify fun s => { s with lock := some .intr }
    pure .silent
  | some _ => fail .disabled

/-- A round of the loop of `virtio_disk_intr`. -/
def virtioDiskIntrRound : Driver Event := do
  let s ← get
  if s.lock = some .intr ∧ s.disk.usedIdx ≠ s.disk.used.idx then
    let idx := s.disk.used.ring (s.disk.usedIdx % num)
    if (s.disk.info idx).status ≠ 0 then fail .intrStatus
    else
      match (s.disk.info idx).b with
      | none => fail .nullBuf
      | some b =>
        modify fun s => { s with bufs := update s.bufs b { s.bufs b with disk := false } }
        wakeup (.buf b)
        modify fun s => { s with
          disk := { s.disk with usedIdx := (s.disk.usedIdx + 1) % idxSize } }
        pure (.processed idx b)
  else fail .disabled

/-- `virtio_disk_intr` after its loop. -/
def virtioDiskIntrLeave : Driver Event := do
  let s ← get
  if s.lock = some .intr ∧ s.disk.usedIdx = s.disk.used.idx then
    modify fun s => { s with lock := none }
    pure .silent
  else fail .disabled

/-! ### The system -/

/-- The steps of the system. -/
inductive Action
  | call (p : ℕ) (c : Rw)
  | run (p : ℕ)
  | fetch
  | transfer (n : ℕ)
  | complete (n : ℕ) (success : Bool)
  | enter
  | round
  | leave
  | kill (p : ℕ)

def exec : Action → Driver Event
  | .call p c => call p c
  | .run p => run p
  | .fetch => fetch
  | .transfer n => transfer n
  | .complete n success => complete n success
  | .enter => virtioDiskIntrEnter
  | .round => virtioDiskIntrRound
  | .leave => virtioDiskIntrLeave
  | .kill p => do
    kill p
    pure .silent

/-- The system after `virtio_disk_init`, with any data on the disk and in the buffers. -/
structure State.Booted (s : State) : Prop where
  free : ∀ i < num, s.disk.free i = true
  availIdx : s.disk.avail.idx = 0
  usedIdx : s.disk.usedIdx = 0
  used : s.disk.used.idx = 0
  seen : s.device.seen = 0
  inflight : s.device.inflight = []
  procs : ∀ p, s.procs p = { pc := .idle, chan := none }
  lock : s.lock = none

end RaidSystem.Virtio
