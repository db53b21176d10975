/-
**The format of the disk: `kernel/fs.h`.**

The kernel and `mkfs` agree on the file system through one header: the order of the areas of the
disk, and where the fields of the structures lie in a block.  Blocks are bytes here, and the
structures are views of them: what is stored in one field is read back from it, and leaves the other
fields alone.

Main definitions:

* `Block`, `Disk` — blocks of `BSIZE` bytes by their numbers;
* `word`, `setWord` — a block as an array of numbers, as the indirect blocks and the log header are;
* `Dinode`, `Dinode.read`, `Dinode.write` — the inodes in a block;
* `Superblock`, `Superblock.Sound` — the order of the areas;
* `Superblock.inode`, `Superblock.marked` — inode number `inum`, and bit number `b` of the free map.

Main results:

* `word_setWord`, `Dinode.read_write_self`, `Dinode.read_write_of_ne`, `Superblock.read_splice` —
  **what is stored is read back, and nothing else changes**.
-/

import RaidSystem.ByteBuffer

set_option autoImplicit false

namespace RaidSystem.Fs

open Bytes (digit)

/-- `BSIZE`. -/
def bsize : ℕ := 1024

/-- `NDIRECT`. -/
def ndirect : ℕ := 12

/-- `NINDIRECT`. -/
def nindirect : ℕ := bsize / 4

/-- `MAXFILE`. -/
def maxfile : ℕ := ndirect + nindirect

/-- `IPB`: a dinode takes 64 bytes. -/
def ipb : ℕ := bsize / 64

/-- `BPB`. -/
def bpb : ℕ := bsize * 8

abbrev Block := Bytes bsize

/-- The blocks of the disk by their numbers. -/
abbrev Disk := ℕ → Block

/-! ### Arrays of numbers -/

section Words

variable {d : Block} {i j v : ℕ}

/-- `((uint*)d)[i]`. -/
def word (d : Block) (i : ℕ) : ℕ := d.num (4 * i) 4

/-- `((uint*)d)[i] = v`. -/
def setWord (d : Block) (i v : ℕ) : Block := d.setNum (4 * i) 4 v

@[simp] theorem word_zero : word Bytes.zero i = 0 := Bytes.num_zero

theorem word_of_le (hi : nindirect ≤ i) : word d i = 0 := by
  have hzero : d.num (4 * i) 4 = (Bytes.zero : Block).num (4 * i) 4 := by
    refine Bytes.num_congr fun k hk _ => ?_
    have hbeyond : bsize ≤ k := by
      simp only [nindirect, bsize] at hi ⊢
      omega
    rw [Bytes.get_of_le hbeyond, Bytes.get_zero]
  rw [word, hzero, Bytes.num_zero]

/-- **Storing a number** changes that number only. -/
theorem word_setWord (hi : i < nindirect) (hv : v < 2 ^ 32) :
    word (setWord d i v) j = if j = i then v else word d j := by
  have hfits : 4 * i + 4 ≤ bsize := by
    simp only [nindirect, bsize] at hi ⊢
    omega
  split_ifs with h
  · subst h
    exact Bytes.num_setNum hfits hv
  · exact Bytes.num_setNum_of_disjoint (by omega)

end Words

/-! ### Inodes -/

/-- `struct dinode`; the fields of type `short` are kept as numbers of 16 bits. -/
structure Dinode where
  type : ℕ
  major : ℕ
  minor : ℕ
  nlink : ℕ
  size : ℕ
  addrs : ℕ → ℕ

namespace Dinode

variable {d : Block} {x : Dinode} {k l : ℕ}

/-- A dinode of zero bytes. -/
def zero : Dinode := ⟨0, 0, 0, 0, 0, fun _ => 0⟩

/-- Dinode number `k` of a block. -/
def read (d : Block) (k : ℕ) : Dinode where
  type := d.num (64 * k) 2
  major := d.num (64 * k + 2) 2
  minor := d.num (64 * k + 4) 2
  nlink := d.num (64 * k + 6) 2
  size := d.num (64 * k + 8) 4
  addrs := fun i => if i ≤ ndirect then d.num (64 * k + 12 + 4 * i) 4 else 0

/-- The bytes of the structure. -/
def bytes (x : Dinode) (j : ℕ) : BitVec 8 :=
  if j < 2 then digit x.type j
  else if j < 4 then digit x.major (j - 2)
  else if j < 6 then digit x.minor (j - 4)
  else if j < 8 then digit x.nlink (j - 6)
  else if j < 12 then digit x.size (j - 8)
  else digit (x.addrs ((j - 12) / 4)) ((j - 12) % 4)

/-- Store a dinode as number `k` of a block. -/
def write (d : Block) (k : ℕ) (x : Dinode) : Block := d.splice (64 * k) 64 x.bytes

/-- The fields have the widths of their types, and there are `NDIRECT + 1` addresses. -/
structure Fits (x : Dinode) : Prop where
  type : x.type < 2 ^ 16
  major : x.major < 2 ^ 16
  minor : x.minor < 2 ^ 16
  nlink : x.nlink < 2 ^ 16
  size : x.size < 2 ^ 32
  addrs : ∀ i, x.addrs i < 2 ^ 32
  addrs_end : ∀ i, ndirect < i → x.addrs i = 0

theorem read_fits (d : Block) (k : ℕ) : (read d k).Fits where
  type := Bytes.num_lt
  major := Bytes.num_lt
  minor := Bytes.num_lt
  nlink := Bytes.num_lt
  size := Bytes.num_lt
  addrs := by
    intro i
    simp only [read]
    split_ifs
    · exact Bytes.num_lt
    · decide
  addrs_end := fun i hi => if_neg (by omega)

theorem zero_fits : zero.Fits := by constructor <;> simp [zero]

/-- The field of `w` bytes at `off` of a dinode that was just stored. -/
theorem num_write {off w v : ℕ} (hk : k < ipb) (hoff : off + w ≤ 64) (hv : v < 256 ^ w)
    (hbytes : ∀ j < w, x.bytes (off + j) = digit v j) :
    (write d k x).num (64 * k + off) w = v := by
  have hend : 64 * k + 64 ≤ bsize := by
    simp only [ipb, bsize] at hk ⊢
    omega
  rw [Bytes.num_of_digits (v := v) fun j hj => ?_, Nat.mod_eq_of_lt hv]
  rw [write, Bytes.get_splice_of_mem (by omega) (by omega) (by omega), ← hbytes j hj]
  congr 1
  omega

theorem num_write_of_ne {off w : ℕ} (hkl : k ≠ l) (hoff : off + w ≤ 64) :
    (write d k x).num (64 * l + off) w = d.num (64 * l + off) w :=
  Bytes.num_splice_of_disjoint (by omega)

/-- **A dinode that was stored is read back.** -/
theorem read_write_self (hk : k < ipb) (hx : x.Fits) : read (write d k x) k = x := by
  have htype : (write d k x).num (64 * k + 0) 2 = x.type :=
    num_write hk (by omega) hx.type fun j hj => by rw [Nat.zero_add, bytes, if_pos hj]
  rw [Nat.add_zero] at htype
  have hmajor : (write d k x).num (64 * k + 2) 2 = x.major := by
    refine num_write hk (by omega) hx.major fun j hj => ?_
    rw [bytes, if_neg (by omega), if_pos (by omega), Nat.add_sub_cancel_left]
  have hminor : (write d k x).num (64 * k + 4) 2 = x.minor := by
    refine num_write hk (by omega) hx.minor fun j hj => ?_
    rw [bytes, if_neg (by omega), if_neg (by omega), if_pos (by omega), Nat.add_sub_cancel_left]
  have hnlink : (write d k x).num (64 * k + 6) 2 = x.nlink := by
    refine num_write hk (by omega) hx.nlink fun j hj => ?_
    rw [bytes, if_neg (by omega), if_neg (by omega), if_neg (by omega), if_pos (by omega),
      Nat.add_sub_cancel_left]
  have hsize : (write d k x).num (64 * k + 8) 4 = x.size := by
    refine num_write hk (by omega) hx.size fun j hj => ?_
    rw [bytes, if_neg (by omega), if_neg (by omega), if_neg (by omega), if_neg (by omega),
      if_pos (by omega), Nat.add_sub_cancel_left]
  have haddrs : (read (write d k x) k).addrs = x.addrs := by
    funext i
    simp only [read]
    split_ifs with hi
    · have hle : i ≤ 12 := hi
      rw [show 64 * k + 12 + 4 * i = 64 * k + (12 + 4 * i) by omega]
      refine num_write hk (by omega) (hx.addrs i) fun j hj => ?_
      rw [bytes, if_neg (by omega), if_neg (by omega), if_neg (by omega), if_neg (by omega),
        if_neg (by omega), show (12 + 4 * i + j - 12) / 4 = i by omega,
        show (12 + 4 * i + j - 12) % 4 = j by omega]
    · rw [hx.addrs_end i (by omega)]
  calc read (write d k x) k
      = ⟨x.type, x.major, x.minor, x.nlink, x.size, x.addrs⟩ := by
        rw [← htype, ← hmajor, ← hminor, ← hnlink, ← hsize, ← haddrs]
        rfl
    _ = x := rfl

/-- **Storing a dinode** leaves the others alone. -/
theorem read_write_of_ne (hkl : k ≠ l) : read (write d k x) l = read d l := by
  have hfirst : (write d k x).num (64 * l + 0) 2 = d.num (64 * l + 0) 2 :=
    num_write_of_ne hkl (by omega)
  rw [Nat.add_zero] at hfirst
  have haddrs : (read (write d k x) l).addrs = (read d l).addrs := by
    funext i
    simp only [read]
    split_ifs with hi
    · have hle : i ≤ 12 := hi
      rw [show 64 * l + 12 + 4 * i = 64 * l + (12 + 4 * i) by omega]
      exact num_write_of_ne hkl (by omega)
    · rfl
  have hrest : ∀ off w, off + w ≤ 64 →
      (write d k x).num (64 * l + off) w = d.num (64 * l + off) w :=
    fun off w h => num_write_of_ne hkl h
  calc read (write d k x) l
      = ⟨d.num (64 * l) 2, d.num (64 * l + 2) 2, d.num (64 * l + 4) 2, d.num (64 * l + 6) 2,
          d.num (64 * l + 8) 4, (read d l).addrs⟩ := by
        rw [← hfirst, ← hrest 2 2 (by omega), ← hrest 4 2 (by omega), ← hrest 6 2 (by omega),
          ← hrest 8 4 (by omega), ← haddrs]
        rfl
    _ = read d l := rfl

@[simp] theorem read_zero : read Bytes.zero k = zero := by
  simp [read, zero]

end Dinode

/-! ### The areas of the disk -/

/-- `struct superblock`. -/
structure Superblock where
  magic : ℕ
  size : ℕ
  nblocks : ℕ
  ninodes : ℕ
  nlog : ℕ
  logstart : ℕ
  inodestart : ℕ
  bmapstart : ℕ

namespace Superblock

variable {sb : Superblock} {d : Block} {disk disk' : Disk} {b inum : ℕ}

/-- `readsb`: the structure at the beginning of a block. -/
def read (d : Block) : Superblock :=
  ⟨word d 0, word d 1, word d 2, word d 3, word d 4, word d 5, word d 6, word d 7⟩

/-- The fields in order. -/
def field (sb : Superblock) : ℕ → ℕ
  | 0 => sb.magic
  | 1 => sb.size
  | 2 => sb.nblocks
  | 3 => sb.ninodes
  | 4 => sb.nlog
  | 5 => sb.logstart
  | 6 => sb.inodestart
  | _ => sb.bmapstart

/-- The bytes of the structure. -/
def bytes (sb : Superblock) (j : ℕ) : BitVec 8 := digit (sb.field (j / 4)) (j % 4)

/-- **A superblock that was stored is read back.** -/
theorem read_splice (h : ∀ i, sb.field i < 2 ^ 32) : read (d.splice 0 32 sb.bytes) = sb := by
  have hword : ∀ i < 8, word (d.splice 0 32 sb.bytes) i = sb.field i := by
    intro i hi
    rw [word, Bytes.num_of_digits (v := sb.field i) fun j hj => ?_]
    · exact Nat.mod_eq_of_lt (h i)
    · have hbound : 4 * i + j < bsize := by
        simp only [bsize]
        omega
      rw [Bytes.get_splice_of_mem (by omega) (by omega) hbound, bytes,
        show (4 * i + j - 0) / 4 = i by omega, show (4 * i + j - 0) % 4 = j by omega]
  rw [read, hword 0 (by omega), hword 1 (by omega), hword 2 (by omega), hword 3 (by omega),
    hword 4 (by omega), hword 5 (by omega), hword 6 (by omega), hword 7 (by omega)]
  rfl

/-- `IBLOCK`. -/
def iblock (sb : Superblock) (i : ℕ) : ℕ := i / ipb + sb.inodestart

/-- `BBLOCK`. -/
def bblock (sb : Superblock) (b : ℕ) : ℕ := b / bpb + sb.bmapstart

/-- The first block of the data area, which is at the end of the disk. -/
def datastart (sb : Superblock) : ℕ := sb.size - sb.nblocks

/-- The areas do not overlap: the inodes come before the free map, and the free map before the
data. -/
structure Sound (sb : Superblock) : Prop where
  size_lt : sb.size < 2 ^ 31
  inodes : ∀ inum < sb.ninodes, sb.iblock inum < sb.bmapstart
  bitmap : ∀ b < sb.size, sb.bblock b < sb.datastart

/-- Inode number `inum` on the disk. -/
def inode (sb : Superblock) (disk : Disk) (inum : ℕ) : Dinode :=
  if inum < sb.ninodes then Dinode.read (disk (sb.iblock inum)) (inum % ipb) else .zero

/-- The free map says that block `b` is in use. -/
def marked (sb : Superblock) (disk : Disk) (b : ℕ) : Bool := (disk (sb.bblock b)).bit (b % bpb)

theorem inode_fits (sb : Superblock) (disk : Disk) (inum : ℕ) : (sb.inode disk inum).Fits := by
  unfold inode
  split_ifs
  · exact Dinode.read_fits _ _
  · exact Dinode.zero_fits

end Superblock

end RaidSystem.Fs
