/-
**The file system: `kernel/fs.c`.**

The layers of `fs.c` above the log: the allocator of disk blocks, the inodes on the disk and in the
table of inodes, the contents of inodes, and directories.  The state is the disk, as the calls of
the file system see it through the buffer cache, and the table.  `log_write` only records that a
block changed, so that a change of a buffer is a change of the disk here; crashes are the matter of
`RaidSystem.LogRecovery`.  The functions below `writei` come with their calls of `log_write`, as
`Logged` programs, for `RaidSystem.WriteLog`; elsewhere these calls are left out of their traces.

A call may find the disk full at any allocation: `full` says of which calls of `balloc` this is so,
whatever the free map says.  Locks do not occur, as a call works on inodes that it has locked.

Main definitions:

* `State`, `Kernel` — the disk and the inode table, and the programs on them;
* `Logged`, `unlogged` — programs with the calls of `log_write` in their traces, and without;
* `balloc`, `bfree` — blocks;
* `ialloc`, `iget`, `idup`, `ilock`, `iput`, `iupdate` — inodes;
* `bmap`, `itrunc`, `readi`, `writei` — the contents of inodes;
* `dirlookup`, `dirlink`, `unlink` — directories, with the string functions `strncmp` and `strncpy`.
-/

import Mathlib.Logic.Function.Basic
import Mathlib.Tactic.Simps.Basic
import RaidSystem.DiskFormat
import RaidSystem.TraceFilter

set_option autoImplicit false

namespace RaidSystem.Fs

open Prog Function

abbrev Byte := BitVec 8

/-- `NINODE`. -/
def ninode : ℕ := 50

/-- `T_DIR`. -/
def tDir : ℕ := 1

/-- `T_FILE`. -/
def tFile : ℕ := 2

/-- `struct inode`: an inode in the table. -/
structure Inode where
  inum : ℕ
  ref : ℕ
  valid : Bool
  din : Dinode

/-- The disk and the inode table.  The next call of `balloc` is number `clock`, and finds the disk
full if `full` says so. -/
structure State where
  disk : Disk
  itable : ℕ → Inode
  full : ℕ → Bool
  clock : ℕ

/-- What the calls print, and the blocks that they allocate. -/
inductive Event
  | alloc (b : ℕ)
  | outOfBlocks
  | noInodes
  deriving DecidableEq

/-- The panics; `looping` is none, but marks loops that would not have come to an end. -/
inductive Fault
  | freeingFreeBlock
  | bmapOutOfRange
  | igetNoInodes
  | ilock
  | ilockNoType
  | dirlookupNotDir
  | dirlookupRead
  | dirlinkRead
  | unlinkWritei
  | looping
  deriving DecidableEq

abbrev Kernel := Prog State Event Fault

/-- What the calls do, and the calls of `log_write` among it. -/
inductive LogEvent
  | logWrite (b : ℕ)
  | fs (e : Event)
  deriving DecidableEq

namespace LogEvent

/-- What is seen besides the calls of `log_write`. -/
def erase : LogEvent → Option Event
  | .logWrite _ => none
  | .fs e => some e

end LogEvent

abbrev Logged := Prog State LogEvent Fault

/-- The program without its calls of `log_write`. -/
def unlogged {α : Type} (x : Logged α) : Kernel α := filterTrace LogEvent.erase x

section Unlogged

variable {α β : Type} {x y : Logged α} {a : α}

@[simp] theorem unlogged_pure : unlogged (pure a) = pure a := rfl

@[simp] theorem unlogged_get : unlogged get = get := rfl

@[simp] theorem unlogged_modify {f : State → State} : unlogged (modify f) = modify f := rfl

@[simp] theorem unlogged_fail {e : Fault} : unlogged (fail e : Logged α) = fail e := rfl

@[simp] theorem unlogged_logWrite {b : ℕ} : unlogged (emit (.logWrite b)) = pure () :=
  filterTrace_emit_none rfl

@[simp] theorem unlogged_bind {k : α → Logged β} :
    unlogged (x >>= k) = unlogged x >>= fun a => unlogged (k a) := filterTrace_bind

@[simp] theorem unlogged_ite {c : Prop} [Decidable c] :
    unlogged (if c then x else y) = if c then unlogged x else unlogged y := filterTrace_ite

/-- **What a program is proved to do without its calls of `log_write`** it also does with them. -/
theorem ends_unlogged {E : Fault → Prop} {s : State} {Q : α → List Event → State → Prop} :
    Ends E (unlogged x) s Q ↔ Ends E x s fun a t s' => Q a (t.filterMap LogEvent.erase) s' :=
  ends_filterTrace

theorem runs_unlogged {s s' : State} {t : List LogEvent} (h : Runs x s a t s') :
    Runs (Fs.unlogged x) s a (t.filterMap LogEvent.erase) s' := by
  unfold Runs at h
  rw [Runs, Fs.unlogged, filterTrace, h]

end Unlogged

namespace Dinode

@[simps] def withAddrs (x : Dinode) (addrs : ℕ → ℕ) : Dinode := { x with addrs := addrs }

@[simps] def withSize (x : Dinode) (size : ℕ) : Dinode := { x with size := size }

@[simps] def withType (x : Dinode) (type : ℕ) : Dinode := { x with type := type }

@[simps] def withNlink (x : Dinode) (nlink : ℕ) : Dinode := { x with nlink := nlink }

end Dinode

namespace Inode

@[simps] def withRef (x : Inode) (ref : ℕ) : Inode := { x with ref := ref }

@[simps] def withDin (x : Inode) (din : Dinode) : Inode := { x with din := din }

/-- The entry is not a copy of the disk inode any more. -/
@[simps] def invalidate (x : Inode) : Inode := { x with valid := false }

end Inode

namespace State

variable (s : State) (b ip : ℕ) (d : Block) (x : Inode) (y : Dinode)

def setBlock : State := { s with disk := update s.disk b d }

@[simp] theorem setBlock_disk : (s.setBlock b d).disk = update s.disk b d := rfl

@[simp] theorem setBlock_itable : (s.setBlock b d).itable = s.itable := rfl

def setInode : State := { s with itable := update s.itable ip x }

@[simp] theorem setInode_disk : (s.setInode ip x).disk = s.disk := rfl

@[simp] theorem setInode_itable : (s.setInode ip x).itable = update s.itable ip x := rfl

def tick : State := { s with clock := s.clock + 1 }

@[simp] theorem tick_disk : s.tick.disk = s.disk := rfl

@[simp] theorem tick_itable : s.tick.itable = s.itable := rfl

/-- The copy of the disk inode. -/
abbrev din : Dinode := (s.itable ip).din

/-- Change the copy of the disk inode. -/
def setDin : State := s.setInode ip ((s.itable ip).withDin y)

@[simp] theorem setDin_disk : (s.setDin ip y).disk = s.disk := rfl

@[simp] theorem setDin_itable :
    (s.setDin ip y).itable = update s.itable ip ((s.itable ip).withDin y) := rfl

end State

/-! ### Blocks -/

/-- `log_write`, of a buffer whose bytes are `d` now. -/
def logWrite (b : ℕ) (d : Block) : Kernel Unit := modify fun s => s.setBlock b d

/-- The inner loop of `balloc`: the first block from `b + bi` on that is free. -/
def freeBit (d : Block) (b size : ℕ) : ℕ → ℕ → Option ℕ
  | _, 0 => none
  | bi, k + 1 =>
    if b + bi < size then
      if d.bit bi then freeBit d b size (bi + 1) k else some (b + bi)
    else none

/-- The outer loop of `balloc`, over the blocks of the free map. -/
def freeBlock (sb : Superblock) (disk : Disk) : ℕ → ℕ → Option ℕ
  | _, 0 => none
  | b, k + 1 =>
    if b < sb.size then
      match freeBit (disk (sb.bblock b)) b sb.size 0 bpb with
      | some x => some x
      | none => freeBlock sb disk (b + bpb) k
    else none

/-- The block that `balloc` finds. -/
def State.findBlock (sb : Superblock) (s : State) : Option ℕ :=
  if s.full s.clock then none else freeBlock sb s.disk 0 (sb.size / bpb + 1)

namespace Logged

/-- `log_write`, of a buffer that was changed before. -/
def logWrite (b : ℕ) : Logged Unit := emit (.logWrite b)

def bzero (b : ℕ) : Logged Unit := do
  modify fun s => s.setBlock b .zero
  logWrite b

def balloc (sb : Superblock) : Logged ℕ := do
  let s ← get
  modify State.tick
  match s.findBlock sb with
  | some b => do
    modify fun s' => s'.setBlock (sb.bblock b) ((s.disk (sb.bblock b)).setBit (b % bpb))
    logWrite (sb.bblock b)
    bzero b
    emit (.fs (.alloc b))
    pure b
  | none => do
    emit (.fs .outOfBlocks)
    pure 0

end Logged

def balloc (sb : Superblock) : Kernel ℕ := unlogged (Logged.balloc sb)

def bfree (sb : Superblock) (b : ℕ) : Kernel Unit := do
  let s ← get
  if sb.marked s.disk b then
    logWrite (sb.bblock b) ((s.disk (sb.bblock b)).clearBit (b % bpb))
  else fail .freeingFreeBlock

/-! ### Inodes -/

/-- The loop of `iget`: the entry that holds the inode, or the first one that is free. -/
def igetScan (itable : ℕ → Inode) (inum : ℕ) : ℕ → ℕ → Option ℕ → ℕ ⊕ Option ℕ
  | _, 0, empty => .inr empty
  | ip, k + 1, empty =>
    if 0 < (itable ip).ref ∧ (itable ip).inum = inum then .inl ip
    else igetScan itable inum (ip + 1) k
      (if empty = none ∧ (itable ip).ref = 0 then some ip else empty)

def idup (ip : ℕ) : Kernel Unit :=
  modify fun s => s.setInode ip ((s.itable ip).withRef ((s.itable ip).ref + 1))

def iget (inum : ℕ) : Kernel ℕ := do
  let s ← get
  match igetScan s.itable inum 0 ninode none with
  | .inl ip => do
    idup ip
    pure ip
  | .inr none => fail .igetNoInodes
  | .inr (some ip) => do
    modify fun s => s.setInode ip ⟨inum, 1, false, s.din ip⟩
    pure ip

/-- The loop of `ialloc`: the first free inode from `inum` on. -/
def freeInode (sb : Superblock) (disk : Disk) : ℕ → ℕ → Option ℕ
  | _, 0 => none
  | inum, k + 1 =>
    if inum < sb.ninodes then
      if (Dinode.read (disk (sb.iblock inum)) (inum % ipb)).type = 0 then some inum
      else freeInode sb disk (inum + 1) k
    else none

/-- `dip` in the block that holds inode number `inum`. -/
def State.setDinode (sb : Superblock) (s : State) (inum : ℕ) (x : Dinode) : State :=
  s.setBlock (sb.iblock inum) (Dinode.write (s.disk (sb.iblock inum)) (inum % ipb) x)

def ialloc (sb : Superblock) (type : ℕ) : Kernel (Option ℕ) := do
  let s ← get
  match freeInode sb s.disk 1 sb.ninodes with
  | some inum => do
    modify fun s => s.setDinode sb inum (Dinode.zero.withType (type % 2 ^ 16))
    let ip ← iget inum
    pure (some ip)
  | none => do
    emit .noInodes
    pure none

def Logged.iupdate (sb : Superblock) (ip : ℕ) : Logged Unit := do
  let s ← get
  modify fun s => s.setDinode sb (s.itable ip).inum (s.din ip)
  logWrite (sb.iblock (s.itable ip).inum)

def iupdate (sb : Superblock) (ip : ℕ) : Kernel Unit := unlogged (Logged.iupdate sb ip)

theorem ends_iupdate {E : Fault → Prop} {sb : Superblock} {ip : ℕ} {s : State}
    {Q : Unit → List Event → State → Prop} :
    Ends E (iupdate sb ip) s Q ↔ Q () [] (s.setDinode sb (s.itable ip).inum (s.din ip)) := Iff.rfl

/-- `ip->nlink = nlink; iupdate(ip)`, as the system calls that make and remove links do it. -/
def setNlink (sb : Superblock) (ip nlink : ℕ) : Kernel Unit := do
  modify fun s => s.setDin ip ((s.din ip).withNlink (nlink % 2 ^ 16))
  iupdate sb ip

/-- The part of `ilock` that reads the inode from the disk. -/
def iload (sb : Superblock) (ip : ℕ) : Kernel Unit := do
  let s ← get
  let x := Dinode.read (s.disk (sb.iblock (s.itable ip).inum)) ((s.itable ip).inum % ipb)
  modify fun s => s.setInode ip ⟨(s.itable ip).inum, (s.itable ip).ref, true, x⟩
  if x.type = 0 then fail .ilockNoType else pure ()

def ilock (sb : Superblock) (ip : ℕ) : Kernel Unit := do
  let s ← get
  if (s.itable ip).ref < 1 then fail .ilock
  else if (s.itable ip).valid then pure ()
  else iload sb ip

/-! ### The contents of inodes -/

/-- `ip->addrs[i] = addr`. -/
abbrev State.setAddr (s : State) (ip i addr : ℕ) : State :=
  s.setDin ip ((s.din ip).withAddrs (update (s.din ip).addrs i addr))

/-- `ip->size = size`. -/
abbrev State.setSize (s : State) (ip size : ℕ) : State := s.setDin ip ((s.din ip).withSize size)

namespace Logged

/-- `ip->addrs[i]`, where a block is allocated if there is none. -/
def bmapAddr (sb : Superblock) (ip i : ℕ) : Logged ℕ := do
  let s ← get
  if (s.din ip).addrs i = 0 then do
    let addr ← balloc sb
    if addr = 0 then pure 0
    else do
      modify fun s => s.setAddr ip i addr
      pure addr
  else pure ((s.din ip).addrs i)

/-- `a[bn]` in the indirect block `ind`, where a block is allocated if there is none. -/
def bmapEntry (sb : Superblock) (ind bn : ℕ) : Logged ℕ := do
  let s ← get
  if word (s.disk ind) bn = 0 then do
    let addr ← balloc sb
    if addr = 0 then pure 0
    else do
      modify fun s => s.setBlock ind (setWord (s.disk ind) bn addr)
      logWrite ind
      pure addr
  else pure (word (s.disk ind) bn)

def bmap (sb : Superblock) (ip bn : ℕ) : Logged ℕ :=
  if bn < ndirect then bmapAddr sb ip bn
  else if bn - ndirect < nindirect then do
    let ind ← bmapAddr sb ip ndirect
    if ind = 0 then pure 0 else bmapEntry sb ind (bn - ndirect)
  else fail .bmapOutOfRange

end Logged

def bmapAddr (sb : Superblock) (ip i : ℕ) : Kernel ℕ := unlogged (Logged.bmapAddr sb ip i)

def bmapEntry (sb : Superblock) (ind bn : ℕ) : Kernel ℕ := unlogged (Logged.bmapEntry sb ind bn)

def bmap (sb : Superblock) (ip bn : ℕ) : Kernel ℕ := unlogged (Logged.bmap sb ip bn)

/-- The body of the first loop of `itrunc`. -/
def freeAddr (sb : Superblock) (ip i : ℕ) : Kernel Unit := do
  let s ← get
  if (s.din ip).addrs i = 0 then pure ()
  else do
    bfree sb ((s.din ip).addrs i)
    modify fun s => s.setAddr ip i 0

/-- The body of the second loop. -/
def freeEntry (sb : Superblock) (ind j : ℕ) : Kernel Unit := do
  let s ← get
  if word (s.disk ind) j = 0 then pure () else bfree sb (word (s.disk ind) j)

/-- The part of `itrunc` for the indirect block. -/
def freeIndirect (sb : Superblock) (ip : ℕ) : Kernel Unit := do
  let s ← get
  if (s.din ip).addrs ndirect = 0 then pure ()
  else do
    forRange (freeEntry sb ((s.din ip).addrs ndirect)) 0 nindirect
    bfree sb ((s.din ip).addrs ndirect)
    modify fun s => s.setAddr ip ndirect 0

def itrunc (sb : Superblock) (ip : ℕ) : Kernel Unit := do
  forRange (freeAddr sb ip) 0 ndirect
  freeIndirect sb ip
  modify fun s => s.setSize ip 0
  iupdate sb ip

/-- The part of `iput` that frees the inode. -/
def ifree (sb : Superblock) (ip : ℕ) : Kernel Unit := do
  itrunc sb ip
  modify fun s => s.setDin ip ((s.din ip).withType 0)
  iupdate sb ip
  modify fun s => s.setInode ip (s.itable ip).invalidate

/-- `ip->ref--`. -/
def unref (ip : ℕ) : Kernel Unit :=
  modify fun s => s.setInode ip ((s.itable ip).withRef ((s.itable ip).ref - 1))

def iput (sb : Superblock) (ip : ℕ) : Kernel Unit := do
  let s ← get
  if (s.itable ip).ref = 1 ∧ (s.itable ip).valid ∧ (s.din ip).nlink = 0 then do
    ifree sb ip
    unref ip
  else unref ip

/-- `min(n - tot, BSIZE - off%BSIZE)`. -/
def chunk (n tot off : ℕ) : ℕ := min (n - tot) (bsize - off % bsize)

/-- How many of the `m` bytes from number `tot` on are copied: all if the address is one of the
kernel, and of user memory those up to the first that is not mapped. -/
def copied (user : Option ℕ) (tot m : ℕ) : ℕ :=
  match user with
  | none => m
  | some k => min m (k - tot)

/-- The `m` bytes of a block from `off` on. -/
def slice (d : Block) (off m : ℕ) : List Byte := (List.range m).map fun i => d.get (off + i)

/-- The loop of `readi`; `dst` are the bytes that were copied so far. -/
def readLoop (sb : Superblock) (ip : ℕ) (user : Option ℕ) (n : ℕ) :
    ℕ → ℕ → ℕ → List Byte → Kernel (ℤ × List Byte)
  | 0, _, _, _ => fail .looping
  | k + 1, tot, off, dst =>
    if tot < n then do
      let addr ← bmap sb ip (off / bsize)
      if addr = 0 then pure (tot, dst)
      else do
        let s ← get
        let m := chunk n tot off
        let out := dst ++ slice (s.disk addr) (off % bsize) (copied user tot m)
        if copied user tot m < m then pure (-1, out)
        else readLoop sb ip user n k (tot + m) (off + m) out
    else pure (tot, dst)

/-- The number returned and the bytes that were copied out. -/
def readi (sb : Superblock) (ip : ℕ) (user : Option ℕ) (off n : ℕ) : Kernel (ℤ × List Byte) := do
  let s ← get
  if (s.din ip).size < off ∨ (off + n) % 2 ^ 32 < off then pure (0, [])
  else if (s.din ip).size < (off + n) % 2 ^ 32 then
    readLoop sb ip user ((s.din ip).size - off) (n + 1) 0 off []
  else readLoop sb ip user n (n + 1) 0 off []

namespace Logged

/-- The loop of `writei`; the values are those of `tot` and `off` at its end.  If `either_copyin`
fails, the bytes before the one that is not mapped have been copied into the buffer, and `log_write`
is not called. -/
def writeLoop (sb : Superblock) (ip : ℕ) (user : Option ℕ) (src : ℕ → Byte) (n : ℕ) :
    ℕ → ℕ → ℕ → Logged (ℕ × ℕ)
  | 0, _, _ => fail .looping
  | k + 1, tot, off =>
    if tot < n then do
      let addr ← bmap sb ip (off / bsize)
      if addr = 0 then pure (tot, off)
      else do
        let m := chunk n tot off
        let c := copied user tot m
        modify fun s => s.setBlock addr
          ((s.disk addr).splice (off % bsize) c fun i => src (tot + i))
        if c < m then pure (tot, off)
        else do
          logWrite addr
          writeLoop sb ip user src n k (tot + m) (off + m)
    else pure (tot, off)

def writei (sb : Superblock) (ip : ℕ) (user : Option ℕ) (src : ℕ → Byte) (off n : ℕ) :
    Logged ℤ := do
  let s ← get
  if (s.din ip).size < off ∨ (off + n) % 2 ^ 32 < off then pure (-1)
  else if maxfile * bsize < (off + n) % 2 ^ 32 then pure (-1)
  else do
    let r ← writeLoop sb ip user src n (n + 1) 0 off
    modify fun s' => s'.setSize ip (max (s.din ip).size r.2)
    iupdate sb ip
    pure (r.1 : ℤ)

end Logged

def writeLoop (sb : Superblock) (ip : ℕ) (user : Option ℕ) (src : ℕ → Byte) (n k tot off : ℕ) :
    Kernel (ℕ × ℕ) := unlogged (Logged.writeLoop sb ip user src n k tot off)

def writei (sb : Superblock) (ip : ℕ) (user : Option ℕ) (src : ℕ → Byte) (off n : ℕ) : Kernel ℤ :=
  unlogged (Logged.writei sb ip user src off n)

/-! ### Directories -/

/-- `DIRSIZ`. -/
def dirsiz : ℕ := 14

/-- `sizeof(struct dirent)`. -/
def direntSize : ℕ := 2 + dirsiz

/-- `strncmp` of the characters from number `i` on. -/
def strncmp (p q : ℕ → Byte) : ℕ → ℕ → ℤ
  | _, 0 => 0
  | i, n + 1 =>
    if p i ≠ 0 ∧ p i = q i then strncmp p q (i + 1) n else (p i).toNat - (q i).toNat

/-- The `n` characters that `strncpy` stores, from number `i` of `t` on. -/
def strncpy (t : ℕ → Byte) : ℕ → ℕ → List Byte
  | _, 0 => []
  | i, n + 1 => if t i = 0 then List.replicate (n + 1) 0 else t i :: strncpy t (i + 1) n

def namecmp (s t : ℕ → Byte) : ℤ := strncmp s t 0 dirsiz

/-- `struct dirent`. -/
structure Dirent where
  inum : ℕ
  name : ℕ → Byte

/-- The structure in its bytes. -/
def Dirent.read (bytes : ℕ → Byte) : Dirent where
  inum := (bytes 0).toNat + 256 * (bytes 1).toNat
  name := fun i => bytes (2 + i)

/-- The bytes of the structure; `inum` is a `ushort`. -/
def Dirent.bytes (de : Dirent) (i : ℕ) : Byte :=
  if i < 2 then Bytes.digit de.inum i else de.name (i - 2)

/-- The entry at `off`; `fault` is the panic if it cannot be read. -/
def readDirent (sb : Superblock) (dp off : ℕ) (fault : Fault) : Kernel Dirent := do
  let r ← readi sb dp none off direntSize
  if r.1 = direntSize then pure (Dirent.read fun i => r.2.getD i 0) else fail fault

/-- The loop of `dirlookup`. -/
def dirlookupLoop (sb : Superblock) (dp : ℕ) (name : ℕ → Byte) : ℕ → ℕ → Kernel (Option (ℕ × ℕ))
  | 0, _ => fail .looping
  | k + 1, off => do
    let s ← get
    if off < (s.din dp).size then do
      let de ← readDirent sb dp off .dirlookupRead
      if de.inum = 0 then dirlookupLoop sb dp name k (off + direntSize)
      else if namecmp name de.name = 0 then do
        let ip ← iget de.inum
        pure (some (ip, off))
      else dirlookupLoop sb dp name k (off + direntSize)
    else pure none

/-- The inode that an entry refers to, and the offset of the entry. -/
def dirlookup (sb : Superblock) (dp : ℕ) (name : ℕ → Byte) : Kernel (Option (ℕ × ℕ)) := do
  let s ← get
  if (s.din dp).type = tDir then dirlookupLoop sb dp name ((s.din dp).size / direntSize + 2) 0
  else fail .dirlookupNotDir

/-- The loop of `dirlink`: the offset of the first entry that is not in use. -/
def emptyDirent (sb : Superblock) (dp : ℕ) : ℕ → ℕ → Kernel ℕ
  | 0, _ => fail .looping
  | k + 1, off => do
    let s ← get
    if off < (s.din dp).size then do
      let de ← readDirent sb dp off .dirlinkRead
      if de.inum = 0 then pure off else emptyDirent sb dp k (off + direntSize)
    else pure off

/-- The entry that `dirlink` stores. -/
def Dirent.make (name : ℕ → Byte) (inum : ℕ) : Dirent where
  inum := inum
  name := fun i => (strncpy name 0 dirsiz).getD i 0

def dirlink (sb : Superblock) (dp : ℕ) (name : ℕ → Byte) (inum : ℕ) : Kernel ℤ := do
  match ← dirlookup sb dp name with
  | some (ip, _) => do
    iput sb ip
    pure (-1)
  | none => do
    let s ← get
    let off ← emptyDirent sb dp ((s.din dp).size / direntSize + 2) 0
    let r ← writei sb dp none (Dirent.make name inum).bytes off direntSize
    if r = direntSize then pure 0 else pure (-1)

/-- What `sys_unlink` does to the directory: the entry that `dirlookup` finds is overwritten by
zeros, and the reference to its inode is dropped. -/
def unlink (sb : Superblock) (dp : ℕ) (name : ℕ → Byte) : Kernel ℤ := do
  match ← dirlookup sb dp name with
  | some (ip, off) => do
    let r ← writei sb dp none (fun _ => 0) off direntSize
    if r = direntSize then do
      iput sb ip
      pure 0
    else fail .unlinkWritei
  | none => pure (-1)

end RaidSystem.Fs
