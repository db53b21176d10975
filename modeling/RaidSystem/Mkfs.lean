/-
**Making a file system: `mkfs/mkfs.c`.**

`mkfs` writes an image of a file system on the host.  It has its own functions for inodes and for
the blocks of a file, and hands out blocks and inodes in order: those below `freeblock` and
`freeinode` are in use.  Files only grow, by `iappend`, and the free map is written at the very end.

The image is a file of blocks.  A block beyond its end cannot be read, and `mkfs` dies when it
tries; nothing else tells it that the disk is full.

Main definitions:

* `Image`, `Host` — the image with the two counters, and the programs on it;
* `winode`, `rinode`, `ialloc`, `balloc`, `iappend`, `main` — the functions of `mkfs.c`;
* `Laid` — the blocks below `freeblock` hold the files, each block of each file once;
* `Ready` — the image between two calls of these functions.

Main results:

* `iappend_ends` — **`iappend` appends to one file**, and leaves the others alone;
* `addFiles_ends` — the root directory and the files after any number of files were added;
* `Finished.of_runs` — **the image when `mkfs` exits with status 0**.
-/

import Mathlib.Data.List.GetD
import Mathlib.Data.List.Induction
import RaidSystem.Directory

set_option autoImplicit false

namespace RaidSystem.Mkfs

open Prog Fs Function

/-! ### The image -/

/-- `FSSIZE`. -/
def fssize : ℕ := 2000

/-- `NINODES`. -/
def ninodes : ℕ := 200

/-- `LOGSIZE`. -/
def nlog : ℕ := 30

def nbitmap : ℕ := fssize / (bsize * 8) + 1

def ninodeblocks : ℕ := ninodes / ipb + 1

def nmeta : ℕ := 2 + nlog + ninodeblocks + nbitmap

def nblocks : ℕ := fssize - nmeta

def sb : Superblock where
  magic := 0x10203040
  size := fssize
  nblocks := nblocks
  ninodes := ninodes
  nlog := nlog
  logstart := 2
  inodestart := 2 + nlog
  bmapstart := 2 + nlog + ninodeblocks

/-- `ROOTINO`. -/
def rootino : ℕ := 1

/-- The image has `len` blocks. -/
structure Image where
  blocks : Disk
  len : ℕ
  freeinode : ℕ
  freeblock : ℕ

/-- A write of `winode`, to the given block. -/
inductive Event
  | winode (sec : ℕ)

/-- `mkfs` exits with status 1, or an assertion fails; `looping` is none of these, but marks loops
that would not have come to an end. -/
inductive Failure
  | die
  | assertion
  | looping

abbrev Host := Prog Image Event Failure

namespace Image

variable (s : Image) (sec : ℕ) (d : Block)

/-- A write beyond the end makes the file longer. -/
def setBlock : Image :=
  { s with blocks := update s.blocks sec d, len := max s.len (sec + 1) }

@[simp] theorem setBlock_blocks : (s.setBlock sec d).blocks = update s.blocks sec d := rfl

@[simp] theorem setBlock_len : (s.setBlock sec d).len = max s.len (sec + 1) := rfl

@[simp] theorem setBlock_freeinode : (s.setBlock sec d).freeinode = s.freeinode := rfl

@[simp] theorem setBlock_freeblock : (s.setBlock sec d).freeblock = s.freeblock := rfl

/-- `freeblock++`. -/
def takeBlock : Image := { s with freeblock := s.freeblock + 1 }

@[simp] theorem takeBlock_blocks : s.takeBlock.blocks = s.blocks := rfl

@[simp] theorem takeBlock_len : s.takeBlock.len = s.len := rfl

@[simp] theorem takeBlock_freeinode : s.takeBlock.freeinode = s.freeinode := rfl

@[simp] theorem takeBlock_freeblock : s.takeBlock.freeblock = s.freeblock + 1 := rfl

/-- `freeinode++`. -/
def takeInode : Image := { s with freeinode := s.freeinode + 1 }

@[simp] theorem takeInode_blocks : s.takeInode.blocks = s.blocks := rfl

@[simp] theorem takeInode_len : s.takeInode.len = s.len := rfl

@[simp] theorem takeInode_freeinode : s.takeInode.freeinode = s.freeinode + 1 := rfl

@[simp] theorem takeInode_freeblock : s.takeInode.freeblock = s.freeblock := rfl

end Image

/-! ### The functions of `mkfs.c` -/

def rsect (sec : ℕ) : Host Block := do
  let s ← get
  if sec < s.len then pure (s.blocks sec) else fail .die

def wsect (sec : ℕ) (d : Block) : Host Unit := modify fun s => s.setBlock sec d

def winode (inum : ℕ) (din : Dinode) : Host Unit := do
  let buf ← rsect (sb.iblock inum)
  emit (.winode (sb.iblock inum))
  wsect (sb.iblock inum) (Dinode.write buf (inum % ipb) din)

def rinode (inum : ℕ) : Host Dinode := do
  let buf ← rsect (sb.iblock inum)
  pure (Dinode.read buf (inum % ipb))

def ialloc (type : ℕ) : Host ℕ := do
  let s ← get
  modify Image.takeInode
  winode s.freeinode ((Dinode.zero.withType type).withNlink 1)
  pure s.freeinode

/-- The block that `balloc` writes: the first `used` bits are set. -/
def bitmap (used : ℕ) : Block := (List.range used).foldl (fun buf i => buf.setBit i) .zero

def balloc (used : ℕ) : Host Unit :=
  if used < bsize * 8 then wsect sb.bmapstart (bitmap used) else fail .assertion

/-- `din.addrs[i]` is set to the next free block, if it is zero. -/
def ensureAddr (din : Dinode) (i : ℕ) : Host Dinode :=
  if din.addrs i = 0 then do
    let s ← get
    modify Image.takeBlock
    pure (din.withAddrs (update din.addrs i s.freeblock))
  else pure din

/-- Entry number `j` of the indirect block, which is set to the next free block if it is zero. -/
def ensureEntry (ind j : ℕ) : Host ℕ := do
  let indirect ← rsect ind
  if word indirect j = 0 then do
    let s ← get
    modify Image.takeBlock
    wsect ind (setWord indirect j s.freeblock)
    pure s.freeblock
  else pure (word indirect j)

/-- The part of `iappend` that finds `x`, the block with number `fbn` of the file. -/
def findBlock (din : Dinode) (fbn : ℕ) : Host (Dinode × ℕ) :=
  if fbn < ndirect then do
    let din ← ensureAddr din fbn
    pure (din, din.addrs fbn)
  else do
    let din ← ensureAddr din ndirect
    let x ← ensureEntry (din.addrs ndirect) (fbn - ndirect)
    pure (din, x)

/-- The loop of `iappend`; `p` are the bytes that are left. -/
def appendLoop : ℕ → Dinode → ℕ → List Byte → Host (Dinode × ℕ)
  | 0, _, _, _ => fail .looping
  | k + 1, din, off, p =>
    if 0 < p.length then
      if off / bsize < maxfile then do
        let r ← findBlock din (off / bsize)
        let n1 := min p.length ((off / bsize + 1) * bsize - off)
        let buf ← rsect r.2
        wsect r.2 (buf.splice (off - off / bsize * bsize) n1 fun i => p.getD i 0)
        appendLoop k r.1 (off + n1) (p.drop n1)
      else fail .assertion
    else pure (din, off)

def iappend (inum : ℕ) (p : List Byte) : Host Unit := do
  let din ← rinode inum
  let r ← appendLoop (p.length + 1) din din.size p
  winode inum (r.1.withSize r.2)

/-! ### The files -/

/-- A string with its terminating NUL. -/
def cstr (name : List Byte) : ℕ → Byte := fun i => name.getD i 0

/-- An argument of `mkfs`, and the bytes that each `read` from the file delivers. -/
structure InputFile where
  name : List Byte
  reads : List (List Byte)
  name_nul : 0 ∉ name
  reads_length : ∀ c ∈ reads, 0 < c.length ∧ c.length ≤ bsize

/-- `"user/"`. -/
def user : List Byte := [0x75, 0x73, 0x65, 0x72, 0x2f]

/-- `'/'`. -/
def slash : Byte := 0x2f

/-- `'_'`. -/
def underscore : Byte := 0x5f

namespace InputFile

def contents (f : InputFile) : List Byte := f.reads.flatten

/-- The argument without `"user/"`. -/
def shortname (f : InputFile) : List Byte :=
  if strncmp (cstr f.name) (cstr user) 0 5 = 0 then f.name.drop 5 else f.name

/-- The name in the file system: a leading `_` is skipped. -/
def stripped (f : InputFile) : List Byte :=
  if cstr f.shortname 0 = underscore then f.shortname.drop 1 else f.shortname

end InputFile

/-- The bytes of `de`, for the given name and inode. -/
def dirent (name : List Byte) (inum : ℕ) : List Byte :=
  (List.range direntSize).map (Dirent.make (cstr name) inum).bytes

/-- The loop that appends what `read` delivers. -/
def appendReads (inum : ℕ) : List (List Byte) → Host Unit
  | [] => pure ()
  | buf :: reads => do
    iappend inum buf
    appendReads inum reads

/-- The body of the loop over the arguments. -/
def addFile (root : ℕ) (f : InputFile) : Host Unit :=
  if slash ∈ f.shortname then fail .assertion
  else do
    let inum ← ialloc tFile
    iappend root (dirent f.stripped inum)
    appendReads inum f.reads

def addFiles (root : ℕ) : List InputFile → Host Unit
  | [] => pure ()
  | f :: files => do
    addFile root f
    addFiles root files

/-- The size of the root directory is made a multiple of the block size. -/
def fixRoot (root : ℕ) : Host Unit := do
  let din ← rinode root
  winode root (din.withSize ((din.size / bsize + 1) * bsize))

/-- `"."`. -/
def dot : List Byte := [0x2e]

/-- `".."`. -/
def dotdot : List Byte := [0x2e, 0x2e]

/-- The beginning of `main`: all blocks are zero, except for the super block. -/
def format : Host Unit := do
  forRange (fun i => wsect i .zero) 0 fssize
  wsect 1 (Bytes.zero.splice 0 32 sb.bytes)

/-- The rest of `main`, from the root directory on. -/
def populate (files : List InputFile) : Host Unit := do
  let root ← ialloc tDir
  if root = rootino then do
    iappend root (dirent dot root)
    iappend root (dirent dotdot root)
    addFiles root files
    fixRoot root
    let s ← get
    balloc s.freeblock
  else fail .assertion

/-- `main`, from the loop that writes the zeros on; it returns if `mkfs` exits with status 0. -/
def main (files : List InputFile) : Host Unit := do
  format
  populate files

/-- The image file was created, and `freeblock` set to the first block after the metadata. -/
def start : Image := ⟨fun _ => .zero, 0, 1, nmeta⟩

/-! ### How the files lie in the image -/

/-- The super block, where there are as many inodes as fit into the blocks for them. -/
def area : Superblock := { sb with ninodes := ninodeblocks * ipb }

theorem area_sound : area.Sound where
  size_lt := by decide
  inodes := by
    intro inum h
    have hlt : inum / ipb < ninodeblocks := (Nat.div_lt_iff_lt_mul (by decide)).2 h
    rw [Superblock.iblock, Nat.add_comm]
    exact Nat.add_lt_add_left hlt _
  bitmap := by
    intro b hb
    have hdiv : b / bpb = 0 := Nat.div_eq_of_lt (Nat.lt_trans hb (by decide))
    rw [Superblock.bblock, hdiv]
    decide

/-- The blocks below `fb` are in use: those behind the metadata belong to the files, each to one
place of one file.  The file with inode `inum` holds the bytes `F inum`, followed by zeros, and has
the blocks for its first `L inum` bytes. -/
structure Laid (disk : Disk) (fb : ℕ) (I : ℕ → Dinode) (F : ℕ → List Byte) (L : ℕ → ℕ) : Prop where
  owned : Owned (refs disk I) (fun b => decide (b < fb)) nmeta (fssize + 2)
  onto : ∀ b, nmeta ≤ b → b < fb → ∃ r, refs disk I r = b
  fits : ∀ inum, (I inum).Fits
  has_iff : ∀ inum bn, refs disk I (blockRef inum bn) ≠ 0 ↔ bn * bsize < L inum
  byte : ∀ inum k, refs disk I (blockRef inum (k / bsize)) ≠ 0 →
    (disk (refs disk I (blockRef inum (k / bsize)))).get (k % bsize) = (F inum).getD k 0
  zero : ∀ b, fb ≤ b → disk b = .zero

namespace Laid

variable {disk disk' : Disk} {fb inum i j n : ℕ} {I I' : ℕ → Dinode} {F : ℕ → List Byte}
  {L L' : ℕ → ℕ} {r : BlockRef} {p : List Byte}

section

variable (h : Laid disk fb I F L)

include h

theorem nmeta_le : nmeta ≤ fb := by
  by_contra hlt
  have hused := h.owned.reserved fb (by omega)
  simp at hused

/-- Nothing refers to the next free block. -/
theorem ne_free (r : BlockRef) : refs disk I r ≠ fb :=
  (h.owned.of_free (b := fb) (by simp)).2 r

theorem lt_free (hr : refs disk I r ≠ 0) : refs disk I r < fb := by
  simpa using h.owned.in_use r hr

/-- Only the blocks that the lengths stand for matter. -/
theorem congr_length (hL : ∀ inum bn, bn * bsize < L' inum ↔ bn * bsize < L inum) :
    Laid disk fb I F L' :=
  { h with has_iff := fun inum bn => (h.has_iff inum bn).trans (hL inum bn).symm }

/-- The inodes may change in other fields than the addresses. -/
theorem congr_addrs (haddrs : ∀ inum, (I' inum).addrs = (I inum).addrs)
    (hfits : ∀ inum, (I' inum).Fits) (hdisk : ∀ b, nmeta ≤ b → disk' b = disk b) :
    Laid disk' fb I' F L := by
  have hinside : ∀ inum, (I inum).addrs ndirect ≠ 0 → nmeta ≤ (I inum).addrs ndirect :=
    fun inum h0 => (h.owned.inside (.addr inum ndirect) h0).1
  have hrefs : refs disk' I' = refs disk I := by
    funext r
    cases r with
    | addr inum i => rw [refs_addr, refs_addr, haddrs]
    | entry inum j =>
      rcases eq_or_ne ((I inum).addrs ndirect) 0 with h0 | h0
      · rw [refs_entry_of_zero h0, refs_entry_of_zero (by rwa [haddrs])]
      · rw [refs_entry h0, refs_entry (by rwa [haddrs]), haddrs, hdisk _ (hinside inum h0)]
  refine ⟨by rw [hrefs]; exact h.owned, by rw [hrefs]; exact h.onto, hfits,
    by rw [hrefs]; exact h.has_iff, ?_, ?_⟩
  · intro inum k h0
    rw [hrefs] at h0 ⊢
    rw [hdisk _ (h.owned.inside _ h0).1]
    exact h.byte inum k h0
  · intro b hb
    rw [hdisk b (Nat.le_trans h.nmeta_le hb)]
    exact h.zero b hb

/-- The next free block is put in a place where there was none. -/
theorem attach (hfb : fb < fssize + 2) (hr : refs disk I r = 0)
    (hrefs : refs disk' I' = update (refs disk I) r fb) (hfits : ∀ inum, (I' inum).Fits)
    (hdata : ∀ r, r.IsData → refs disk I r ≠ 0 → disk' (refs disk I r) = disk (refs disk I r))
    (hzero : ∀ b, fb ≤ b → disk' b = .zero)
    (hL : ∀ inum bn, bn * bsize < L' inum ↔ bn * bsize < L inum ∨ blockRef inum bn = r)
    (hF : ∀ inum k, blockRef inum (k / bsize) = r → (F inum).length ≤ k) :
    Laid disk' (fb + 1) I' F L' := by
  have hpos : fb ≠ 0 := by
    have hle := h.nmeta_le
    have hmeta : 0 < nmeta := by decide
    omega
  have hcases : ∀ r', refs disk' I' r' = if r' = r then fb else refs disk I r' := by
    intro r'
    rw [hrefs, update_apply]
  have hmono : Owned (refs disk I) (fun b => decide (b < fb + 1)) nmeta (fssize + 2) := by
    refine h.owned.mono fun b _ hb => ?_
    simp only [decide_eq_true_eq] at hb ⊢
    omega
  refine ⟨?_, ?_, hfits, ?_, ?_, fun b hb => hzero b (by omega)⟩
  · rw [hrefs]
    exact hmono.attach h.ne_free h.nmeta_le hfb (by simp)
  · intro b hle hlt
    rcases Nat.lt_or_ge b fb with hb | hb
    · obtain ⟨r', hr'⟩ := h.onto b hle hb
      have hne : r' ≠ r := by
        rintro rfl
        rw [hr] at hr'
        have hmeta : 0 < nmeta := by decide
        omega
      exact ⟨r', by rw [hcases, if_neg hne, hr']⟩
    · exact ⟨r, by rw [hcases, if_pos rfl]; omega⟩
  · intro inum bn
    rw [hcases, hL]
    split_ifs with heq
    · simp [heq, hpos]
    · simp [heq, h.has_iff]
  · intro inum k h0
    rw [hcases] at h0 ⊢
    split_ifs at h0 ⊢ with heq
    · rw [hzero fb (Nat.le_refl _), Bytes.get_zero, List.getD_eq_default _ _ (hF inum k heq)]
    · rw [hdata _ blockRef_isData h0]
      exact h.byte inum k h0

/-- No block of bytes is an indirect block. -/
theorem ne_indirect (hr : r.IsData) (h0 : refs disk I r ≠ 0) (inum : ℕ) :
    (I inum).addrs ndirect ≠ refs disk I r := by
  intro heq
  have hsame := h.owned.unique r (.addr inum ndirect) h0 heq.symm
  subst hsame
  exact hr rfl

/-- Bytes are appended to a file, in the block that holds its end. -/
theorem append (hL : L inum = (F inum).length + 1) (hn : n ≤ p.length) (hpos : 0 < n)
    (hroom : n ≤ bsize - (F inum).length % bsize)
    (hdisk : disk' = update disk (refs disk I (blockRef inum ((F inum).length / bsize)))
      ((disk (refs disk I (blockRef inum ((F inum).length / bsize)))).splice
        ((F inum).length % bsize) n fun i => p.getD i 0)) :
    Laid disk' fb I (update F inum (F inum ++ p.take n))
      (update L inum ((F inum).length + n)) := by
  have h0 : refs disk I (blockRef inum ((F inum).length / bsize)) ≠ 0 := by
    rw [h.has_iff, hL]
    exact Nat.lt_succ_of_le (Nat.div_mul_le_self _ _)
  have hrefs : refs disk' I = refs disk I := by
    refine refs_congr fun inum' _ => ?_
    rw [hdisk, update_of_ne (h.ne_indirect blockRef_isData h0 inum')]
  refine ⟨by rw [hrefs]; exact h.owned, by rw [hrefs]; exact h.onto, h.fits, ?_, ?_, ?_⟩
  · intro inum' bn
    rw [hrefs, h.has_iff]
    rcases eq_or_ne inum' inum with rfl | hne
    · rw [update_self, hL]
      simp only [bsize] at hroom ⊢
      omega
    · rw [update_of_ne hne]
  · intro inum' k hk
    rw [hrefs] at hk ⊢
    have hold := h.byte inum' k hk
    have hmod : k % bsize < bsize := Nat.mod_lt _ (by decide)
    rw [hdisk]
    rcases eq_or_ne (blockRef inum' (k / bsize))
      (blockRef inum ((F inum).length / bsize)) with heq | hne
    · have hinum : inum' = inum := inum_eq_of_blockRef heq
      subst hinum
      have hdiv := blockRef_inj heq
      rw [heq] at hold
      rw [heq, update_self, update_self, Bytes.get_splice hmod]
      split_ifs with hin
      · -- one of the new bytes
        have hle : (F inum').length ≤ k := by
          simp only [bsize] at hdiv hin
          omega
        have hlt : k - (F inum').length < n := by
          simp only [bsize] at hdiv hin
          omega
        have hsub : k % bsize - (F inum').length % bsize = k - (F inum').length := by
          simp only [bsize] at hdiv hin ⊢
          omega
        rw [hsub, List.getD_append_right _ _ _ _ hle, List.getD_eq_getElem?_getD,
          List.getD_eq_getElem?_getD, List.getElem?_take_of_lt hlt]
      · rw [hold]
        rcases Nat.lt_or_ge k (F inum').length with hlt | hge
        · rw [List.getD_append _ _ _ _ hlt]
        · have hbeyond : n ≤ k - (F inum').length := by
            simp only [bsize] at hdiv hin hroom
            omega
          rw [List.getD_eq_default _ _ hge, List.getD_eq_default]
          simp only [List.length_append, List.length_take]
          omega
    · have hblock : refs disk I (blockRef inum' (k / bsize)) ≠
          refs disk I (blockRef inum ((F inum).length / bsize)) := fun heq =>
        hne (h.owned.unique _ _ hk heq)
      rw [update_of_ne hblock, hold]
      rcases eq_or_ne inum' inum with rfl | hinum
      · -- another block of the same file lies before its end
        have hlt : k < (F inum').length := by
          have hhas := (h.has_iff inum' (k / bsize)).1 hk
          have hdiv : k / bsize ≠ (F inum').length / bsize := fun heq => hne (by rw [heq])
          rw [hL] at hhas
          simp only [bsize] at hhas hdiv
          omega
        rw [update_self, List.getD_append _ _ _ _ hlt]
      · rw [update_of_ne hinum]
  · intro b hb
    rw [hdisk, update_of_ne (by have := h.lt_free h0; omega)]
    exact h.zero b hb

end

end Laid

/-! ### Appending to a file -/

/-- The loop of `iappend` works on inode `inum`, whose fields are `din` now. -/
structure Appending (s : Image) (inum : ℕ) (din : Dinode) (F : ℕ → List Byte) (L : ℕ → ℕ) :
    Prop where
  len : s.len = fssize
  laid : Laid s.blocks s.freeblock (update (area.inode s.blocks) inum din) F L

/-- Only blocks for the contents of files have changed. -/
structure Kept (s : Image) (din : Dinode) (s' : Image) (din' : Dinode) : Prop where
  metadata : ∀ b < nmeta, s'.blocks b = s.blocks b
  freeinode : s'.freeinode = s.freeinode
  type : din'.type = din.type
  le : s.freeblock ≤ s'.freeblock

section Append

variable {s s₁ s' : Image} {din din' din₁ : Dinode} {inum i j n k : ℕ} {F : ℕ → List Byte}
  {L : ℕ → ℕ} {p : List Byte} {r : Dinode × ℕ} {E : Failure → Prop}

theorem Kept.refl : Kept s din s din := ⟨fun _ _ => rfl, rfl, rfl, Nat.le_refl _⟩

theorem Kept.trans (h : Kept s din s₁ din₁) (h' : Kept s₁ din₁ s' din') : Kept s din s' din' where
  metadata := fun b hb => (h'.metadata b hb).trans (h.metadata b hb)
  freeinode := h'.freeinode.trans h.freeinode
  type := h'.type.trans h.type
  le := Nat.le_trans h.le h'.le

/-- The inodes on the disk are as before. -/
theorem Kept.inode (h : Kept s din s' din') : area.inode s'.blocks = area.inode s.blocks := by
  refine area_sound.inode_congr fun b hb => h.metadata b (Nat.lt_trans hb ?_)
  decide

theorem rsect_ends {Q : Block → List Event → Image → Prop} {sec : ℕ} (hdie : s.len ≤ sec → E .die)
    (h : sec < s.len → Q (s.blocks sec) [] s) : Ends E (rsect sec) s Q := by
  rw [rsect, ends_bind, ends_get]
  split_ifs with hlt
  · rw [ends_pure]
    exact h hlt
  · exact hdie (by omega)

namespace Appending

theorem refs_addr : refs s.blocks (update (area.inode s.blocks) inum din) (.addr inum i) =
    din.addrs i := by
  rw [Fs.refs_addr, update_self]

theorem refs_entry (h0 : din.addrs ndirect ≠ 0) :
    refs s.blocks (update (area.inode s.blocks) inum din) (.entry inum j) =
      word (s.blocks (din.addrs ndirect)) j := by
  rw [Fs.refs_entry (by rwa [update_self]), update_self]

section

variable (h : Appending s inum din F L)

include h

theorem fits : din.Fits := by
  have hfits := h.laid.fits inum
  rwa [update_self] at hfits

theorem fits_update (hdin : din'.Fits) (inum' : ℕ) :
    (update (area.inode s.blocks) inum din' inum').Fits := by
  rcases eq_or_ne inum' inum with rfl | hne
  · rwa [update_self]
  · rw [update_of_ne hne]
    exact area.inode_fits _ _

/-- The inode gets a new address. -/
theorem setAddr {L' : ℕ → ℕ} (hfb : s.freeblock < fssize + 2) (hi : i ≤ ndirect)
    (h0 : din.addrs i = 0)
    (hL : ∀ inum' bn, bn * bsize < L' inum' ↔ bn * bsize < L inum' ∨
      blockRef inum' bn = .addr inum i)
    (hF : ∀ inum' k, blockRef inum' (k / bsize) = .addr inum i → (F inum').length ≤ k) :
    Appending s.takeBlock inum (din.withAddrs (update din.addrs i s.freeblock)) F L' := by
  have hempty : i = ndirect → (update (area.inode s.blocks) inum din inum).addrs ndirect = 0 ∧
      s.blocks s.freeblock = .zero := by
    intro hi
    rw [update_self]
    exact ⟨by rwa [hi] at h0, h.laid.zero _ (Nat.le_refl _)⟩
  have hrefs := Fs.refs_setAddr hempty
  rw [update_self, update_idem] at hrefs
  refine ⟨h.len, h.laid.attach hfb (by rwa [refs_addr]) hrefs (h.fits_update ?_) (fun _ _ _ => rfl)
    h.laid.zero hL hF⟩
  exact h.fits.withAddr hi (Nat.lt_trans hfb (by decide))

/-- The indirect block gets a new entry. -/
theorem setEntry {L' : ℕ → ℕ} (hfb : s.freeblock < fssize + 2) (hj : j < nindirect)
    (hind : din.addrs ndirect ≠ 0) (hlt : din.addrs ndirect < fssize)
    (h0 : word (s.blocks (din.addrs ndirect)) j = 0)
    (hL : ∀ inum' bn, bn * bsize < L' inum' ↔ bn * bsize < L inum' ∨
      blockRef inum' bn = .entry inum j)
    (hF : ∀ inum' k, blockRef inum' (k / bsize) = .entry inum j → (F inum').length ≤ k) :
    Appending (s.takeBlock.setBlock (din.addrs ndirect)
      (setWord (s.blocks (din.addrs ndirect)) j s.freeblock)) inum din F L' := by
  have hlaid := h.laid
  have hinside := hlaid.owned.inside (.addr inum ndirect) (by rwa [refs_addr])
  have hfree := hlaid.lt_free (r := .addr inum ndirect) (by rwa [refs_addr])
  rw [refs_addr] at hinside hfree
  -- the inodes on the disk are not in this block
  have hinode : area.inode (update s.blocks (din.addrs ndirect)
      (setWord (s.blocks (din.addrs ndirect)) j s.freeblock)) = area.inode s.blocks := by
    refine area_sound.inode_congr fun b hb => update_of_ne ?_ _ _
    have hmeta : area.bmapstart < nmeta := by decide
    omega
  have hself : (update (area.inode s.blocks) inum din inum).addrs ndirect = din.addrs ndirect := by
    rw [update_self]
  have hunique : ∀ inum', (update (area.inode s.blocks) inum din inum').addrs ndirect =
      din.addrs ndirect → inum' = inum := by
    intro inum' heq
    have hsame := hlaid.owned.unique (.addr inum' ndirect) (.addr inum ndirect)
      (by rwa [Fs.refs_addr, heq]) (by rw [refs_addr, Fs.refs_addr, heq])
    exact (BlockRef.addr.inj hsame).1
  have hrefs : refs (update s.blocks (din.addrs ndirect)
      (setWord (s.blocks (din.addrs ndirect)) j s.freeblock))
        (update (area.inode s.blocks) inum din) = _ :=
    Fs.refs_setWord hself hind hunique hj (Nat.lt_trans hfb (by decide))
  refine ⟨?_, ?_⟩
  · rw [Image.setBlock_len, Image.takeBlock_len, h.len]
    omega
  · rw [Image.setBlock_blocks, Image.setBlock_freeblock, Image.takeBlock_blocks,
      Image.takeBlock_freeblock, hinode]
    refine hlaid.attach hfb (by rwa [refs_entry hind]) hrefs hlaid.fits ?_ ?_ hL hF
    · intro r hr hr0
      have hne := hlaid.ne_indirect hr hr0 inum
      rw [update_self] at hne
      exact update_of_ne (Ne.symm hne) _ _
    · intro b hb
      rw [update_of_ne (by omega)]
      exact hlaid.zero b hb

end

end Appending

theorem Kept.takeBlock {addrs : ℕ → ℕ} : Kept s din s.takeBlock (din.withAddrs addrs) :=
  ⟨fun _ _ => rfl, rfl, rfl, Nat.le_succ _⟩

/-- `din.addrs[i]` is not zero any more. -/
theorem ensureAddr_ends {Q : Dinode → List Event → Image → Prop}
    (hold : din.addrs i ≠ 0 → Q din [] s)
    (hnew : din.addrs i = 0 →
      Q (din.withAddrs (update din.addrs i s.freeblock)) [] s.takeBlock) :
    Ends E (ensureAddr din i) s Q := by
  rw [ensureAddr]
  split_ifs with h0
  · simp only [ends_bind, ends_get, ends_modify, ends_pure, List.nil_append]
    exact hnew h0
  · rw [ends_pure]
    exact hold h0

/-- The block with number `fbn` was found, after at most `m` allocations: `r` are the inode and the
block. -/
structure Found (m : ℕ) (s : Image) (din : Dinode) (inum fbn : ℕ) (F : ℕ → List Byte) (L : ℕ → ℕ)
    (r : Dinode × ℕ) (s' : Image) : Prop where
  appending : Appending s' inum r.1 F L
  block : r.2 = refs s'.blocks (update (area.inode s'.blocks) inum r.1) (blockRef inum fbn)
  kept : Kept s din s' r.1
  le : s'.freeblock ≤ s.freeblock + m
  last : s'.freeblock ≤ fssize ∨ s'.freeblock = r.2 + 1

/-- The bytes before and at the end of a file. -/
theorem lt_succ_iff {len bn : ℕ} :
    bn * bsize < len + 1 ↔ bn * bsize < len ∨ bn = len / bsize := by
  simp only [bsize]
  omega

/-- The blocks of all files, with the one that the next byte goes to. -/
theorem lt_update_iff (hL : L inum = n) {inum' bn : ℕ} :
    bn * bsize < update L inum (n + 1) inum' ↔
      bn * bsize < L inum' ∨ blockRef inum' bn = blockRef inum (n / bsize) := by
  rcases eq_or_ne inum' inum with rfl | hne
  · have hiff : blockRef inum' bn = blockRef inum' (n / bsize) ↔ bn = n / bsize :=
      ⟨blockRef_inj, fun h => by rw [h]⟩
    rw [update_self, hL, lt_succ_iff, hiff]
  · have hdiff : blockRef inum' bn ≠ blockRef inum (n / bsize) :=
      fun heq => hne (inum_eq_of_blockRef heq)
    rw [update_of_ne hne]
    simp [hdiff]

/-- The block that the next byte goes to is there already. -/
theorem Appending.relax (h : Appending s inum din F L) (hL : L inum = n)
    (h0 : refs s.blocks (update (area.inode s.blocks) inum din)
      (blockRef inum (n / bsize)) ≠ 0) :
    Appending s inum din F (update L inum (n + 1)) := by
  refine ⟨h.len, h.laid.congr_length fun inum' bn => ?_⟩
  rw [lt_update_iff hL]
  constructor
  · rintro (hlt | heq)
    · exact hlt
    · rw [← heq, h.laid.has_iff] at h0
      exact h0
  · exact .inl

/-- If it is not there, the file ends where this block begins. -/
theorem Appending.end_le (h : Appending s inum din F L) (hL : L inum = (F inum).length)
    (h0 : refs s.blocks (update (area.inode s.blocks) inum din)
      (blockRef inum ((F inum).length / bsize)) = 0) {inum' k : ℕ}
    (hk : blockRef inum' (k / bsize) = blockRef inum ((F inum).length / bsize)) :
    (F inum').length ≤ k := by
  have hinum := inum_eq_of_blockRef hk
  subst hinum
  have hdiv := blockRef_inj hk
  have hend := mt (h.laid.has_iff inum' _).2 (not_not.2 h0)
  rw [hL] at hend
  simp only [bsize] at hdiv hend
  omega

theorem blockRef_of_lt {bn : ℕ} (h : bn < ndirect) : blockRef inum bn = .addr inum bn := if_pos h

theorem blockRef_of_le {bn : ℕ} (h : ndirect ≤ bn) :
    blockRef inum bn = .entry inum (bn - ndirect) :=
  if_neg (Nat.not_lt.2 h)

/-- The entry of the indirect block is not zero any more. -/
theorem ensureEntry_ends (h : Appending s inum din F L) (hL : L inum = (F inum).length)
    (hind : din.addrs ndirect ≠ 0) (hlo : ndirect ≤ (F inum).length / bsize)
    (hhi : (F inum).length / bsize < maxfile)
    (hle : s.freeblock ≤ fssize ∨ s.freeblock = din.addrs ndirect + 1)
    (hdie : fssize ≤ din.addrs ndirect → E .die) :
    Ends E (ensureEntry (din.addrs ndirect) ((F inum).length / bsize - ndirect)) s fun x t s' =>
      t = [] ∧ Found 1 s din inum ((F inum).length / bsize) F
        (update L inum ((F inum).length + 1)) (din, x) s' := by
  have hentry : refs s.blocks (update (area.inode s.blocks) inum din)
      (.entry inum ((F inum).length / bsize - ndirect)) =
        word (s.blocks (din.addrs ndirect)) ((F inum).length / bsize - ndirect) :=
    Appending.refs_entry hind
  have hj : (F inum).length / bsize - ndirect < nindirect := by
    simp only [maxfile] at hhi
    omega
  rw [ensureEntry, ends_bind]
  refine rsect_ends (fun hlen => hdie (by rwa [h.len] at hlen)) fun hlen => ?_
  rw [h.len] at hlen
  have hfb : s.freeblock ≤ fssize := by omega
  split_ifs with h0
  · simp only [ends_bind, ends_get, ends_modify, ends_pure, wsect, List.nil_append, true_and]
    have hzero : refs s.blocks (update (area.inode s.blocks) inum din)
        (blockRef inum ((F inum).length / bsize)) = 0 := by
      rw [blockRef_of_le hlo, hentry, h0]
    refine ⟨h.setEntry (by omega) hj hind hlen h0 ?_ ?_, ?_, ⟨?_, rfl, rfl, Nat.le_succ _⟩,
      Nat.le_refl _, .inr rfl⟩
    · intro inum' bn
      rw [lt_update_iff hL, blockRef_of_le hlo]
    · intro inum' k hk
      exact h.end_le hL hzero (by rw [hk, blockRef_of_le hlo])
    · rw [blockRef_of_le hlo, Appending.refs_entry hind, Image.setBlock_blocks, update_self,
        word_setWord hj (Nat.lt_of_le_of_lt hfb (by decide)), if_pos rfl]
    · intro b hb
      have hinside := h.laid.owned.inside (.addr inum ndirect) (by rwa [Appending.refs_addr])
      rw [Appending.refs_addr] at hinside
      exact update_of_ne (by omega) _ _
  · rw [ends_pure]
    have hne : refs s.blocks (update (area.inode s.blocks) inum din)
        (blockRef inum ((F inum).length / bsize)) ≠ 0 := by
      rwa [blockRef_of_le hlo, hentry]
    refine ⟨rfl, h.relax hL hne, ?_, .refl, Nat.le_succ _, .inl hfb⟩
    rw [blockRef_of_le hlo, hentry]

/-- **The block that the next byte goes to** is found or allocated. -/
theorem findBlock_ends (h : Appending s inum din F L) (hL : L inum = (F inum).length)
    (hle : s.freeblock ≤ fssize) (hhi : (F inum).length / bsize < maxfile)
    (hdie : fssize < s.freeblock + 2 → E .die) :
    Ends E (findBlock din ((F inum).length / bsize)) s fun r t s' =>
      t = [] ∧ Found 2 s din inum ((F inum).length / bsize) F
        (update L inum ((F inum).length + 1)) r s' := by
  rw [findBlock]
  split_ifs with hdirect
  · rw [ends_bind]
    refine ensureAddr_ends (fun h0 => ?_) fun h0 => ?_
    · rw [ends_pure]
      have hne : refs s.blocks (update (area.inode s.blocks) inum din)
          (blockRef inum ((F inum).length / bsize)) ≠ 0 := by
        rwa [blockRef_of_lt hdirect, Appending.refs_addr]
      refine ⟨rfl, h.relax hL hne, ?_, .refl, Nat.le_add_right _ _, .inl hle⟩
      rw [blockRef_of_lt hdirect, Appending.refs_addr]
    · rw [ends_pure]
      have hzero : refs s.blocks (update (area.inode s.blocks) inum din)
          (blockRef inum ((F inum).length / bsize)) = 0 := by
        rwa [blockRef_of_lt hdirect, Appending.refs_addr]
      refine ⟨rfl, h.setAddr (by omega) (Nat.le_of_lt hdirect) h0 ?_ ?_, ?_, .takeBlock,
        Nat.le_succ _, .inr ?_⟩
      · intro inum' bn
        rw [lt_update_iff hL, blockRef_of_lt hdirect]
      · intro inum' k hk
        exact h.end_le hL hzero (by rw [hk, blockRef_of_lt hdirect])
      · rw [blockRef_of_lt hdirect, Appending.refs_addr]
      · rw [Dinode.withAddrs_addrs, update_self]
        rfl
  · have hlo : ndirect ≤ (F inum).length / bsize := by omega
    rw [ends_bind]
    refine ensureAddr_ends (fun h0 => ?_) fun h0 => ?_
    · have hlt := h.laid.lt_free (r := .addr inum ndirect) (by rwa [Appending.refs_addr])
      rw [Appending.refs_addr] at hlt
      rw [ends_bind]
      refine (ensureEntry_ends h hL h0 hlo hhi (.inl hle) (fun hge => by omega)).post ?_
      rintro x t s' ⟨rfl, hx⟩
      rw [ends_pure]
      exact ⟨rfl, hx.appending, hx.block, hx.kept, Nat.le_succ_of_le hx.le, hx.last⟩
    · -- the indirect block is new, and so is its entry
      have hpos : s.freeblock ≠ 0 := by
        have hmeta := h.laid.nmeta_le
        have : 0 < nmeta := by decide
        omega
      have hnodata : ∀ inum' bn, blockRef inum' bn ≠ .addr inum ndirect := by
        intro inum' bn heq
        have hdata : (blockRef inum' bn).IsData := blockRef_isData
        rw [heq] at hdata
        exact hdata rfl
      have hnew : Appending s.takeBlock inum
          (din.withAddrs (update din.addrs ndirect s.freeblock)) F L :=
        h.setAddr (by omega) (Nat.le_refl ndirect) h0 (fun inum' bn => by simp [hnodata])
          (fun inum' k hk => absurd hk (hnodata _ _))
      have haddr : (din.withAddrs (update din.addrs ndirect s.freeblock)).addrs ndirect =
          s.freeblock := by
        rw [Dinode.withAddrs_addrs, update_self]
      rw [ends_bind]
      refine (ensureEntry_ends hnew hL (by rwa [haddr]) hlo hhi (.inr (by rw [haddr]; rfl))
        (fun hge => hdie (by rw [haddr] at hge; omega))).post ?_
      rintro x t s' ⟨rfl, hx⟩
      rw [ends_pure]
      exact ⟨rfl, hx.appending, hx.block, Kept.takeBlock.trans hx.kept, hx.le, hx.last⟩

/-- How many blocks `n` bytes behind the first `len` bytes of a file touch. -/
def touched (len n : ℕ) : ℕ := if n = 0 then 0 else (len % bsize + n + (bsize - 1)) / bsize

theorem touched_pos {len : ℕ} (h : 0 < n) : 0 < touched len n := by
  rw [touched, if_neg (by omega)]
  simp only [bsize]
  omega

/-- One block was written. -/
theorem touched_step {len m : ℕ} (h : 0 < n) (hm : m = min n (bsize - len % bsize)) :
    touched (len + m) (n - m) + 1 = touched len n := by
  rw [touched, touched, if_neg (by omega : n ≠ 0)]
  simp only [bsize] at *
  split_ifs with hlast
  · omega
  · omega

/-- What the loop of `iappend` ends with. -/
structure Appended (s : Image) (din : Dinode) (inum : ℕ) (p : List Byte) (F : ℕ → List Byte)
    (L : ℕ → ℕ) (r : Dinode × ℕ) (s' : Image) : Prop where
  appending : Appending s' inum r.1 (update F inum (F inum ++ p))
    (update L inum ((F inum).length + p.length))
  off_eq : r.2 = (F inum).length + p.length
  kept : Kept s din s' r.1
  free : s'.freeblock ≤ fssize
  le : s'.freeblock ≤ s.freeblock + 2 * touched (F inum).length p.length

/-- Bytes are written to the block that was found. -/
theorem Found.append (h : Found 2 s din inum ((F inum).length / bsize) F
      (update L inum ((F inum).length + 1)) r s₁) (hlt : r.2 < fssize) (hn : n ≤ p.length)
    (hpos : 0 < n) (hroom : n ≤ bsize - (F inum).length % bsize) :
    let s' := s₁.setBlock r.2 ((s₁.blocks r.2).splice ((F inum).length % bsize) n
      fun i => p.getD i 0)
    Appending s' inum r.1 (update F inum (F inum ++ p.take n))
      (update L inum ((F inum).length + n)) ∧ Kept s din s' r.1 := by
  intro s'
  have hlaid := h.appending.laid
  have hne : r.2 ≠ 0 := by
    rw [h.block, hlaid.has_iff, update_self]
    exact Nat.lt_succ_of_le (Nat.div_mul_le_self _ _)
  have hlo : nmeta ≤ r.2 := by
    rw [h.block] at hne ⊢
    exact (hlaid.owned.inside _ hne).1
  have hmeta : ∀ b < nmeta, s'.blocks b = s₁.blocks b := fun b hb =>
    update_of_ne (by omega) _ _
  have hkept : Kept s₁ r.1 s' r.1 := ⟨hmeta, rfl, rfl, Nat.le_refl _⟩
  refine ⟨⟨?_, ?_⟩, h.kept.trans hkept⟩
  · rw [Image.setBlock_len, h.appending.len]
    omega
  · rw [hkept.inode]
    have hnew := hlaid.append (p := p) (update_self ..) hn hpos hroom rfl
    rw [← h.block, update_idem] at hnew
    exact hnew

/-- **The loop of `iappend`** writes the bytes behind the end of the file. -/
theorem appendLoop_ends (h : Appending s inum din F L) (hL : L inum = (F inum).length)
    (hle : s.freeblock ≤ fssize) (hfuel : p.length < k)
    (hdie : fssize < s.freeblock + 2 * touched (F inum).length p.length → E .die)
    (hassert : maxfile * bsize < (F inum).length + p.length → E .assertion) :
    Ends E (appendLoop k din (F inum).length p) s fun r t s' =>
      t = [] ∧ Appended s din inum p F L r s' := by
  induction k generalizing s din F L p with
  | zero => omega
  | succ k ih =>
    rw [appendLoop]
    split_ifs with hpos hmax
    · have htouched : 0 < touched (F inum).length p.length := touched_pos hpos
      rw [ends_bind]
      refine (findBlock_ends h hL hle hmax fun hfull => hdie (by omega)).post ?_
      rintro r t s₁ ⟨rfl, hfound⟩
      have hlaid := hfound.appending.laid
      have hle₁ := hfound.le
      have hne : r.2 ≠ 0 := by
        rw [hfound.block, hlaid.has_iff, update_self]
        exact Nat.lt_succ_of_le (Nat.div_mul_le_self _ _)
      have hlast : r.2 < s₁.freeblock := by
        rw [hfound.block] at hne ⊢
        exact hlaid.lt_free hne
      have hoff : (F inum).length - (F inum).length / bsize * bsize = (F inum).length % bsize := by
        simp only [bsize]
        omega
      have hroom : ((F inum).length / bsize + 1) * bsize - (F inum).length =
          bsize - (F inum).length % bsize := by
        simp only [bsize]
        omega
      simp only [ends_bind, hoff, hroom, List.nil_append]
      refine rsect_ends (fun hlen => hdie (by rw [hfound.appending.len] at hlen; omega))
        fun hlen => ?_
      rw [hfound.appending.len] at hlen
      simp only [wsect, ends_modify, List.nil_append]
      generalize hm : min p.length (bsize - (F inum).length % bsize) = m
      have hmpos : 0 < m := by
        have : (F inum).length % bsize < bsize := Nat.mod_lt _ (by decide)
        omega
      obtain ⟨happ, hkept⟩ := hfound.append hlen (by omega : m ≤ p.length) hmpos (by omega)
      have hstep := touched_step hpos hm.symm
      have hlen' : (update F inum (F inum ++ p.take m) inum).length = (F inum).length + m := by
        rw [update_self, List.length_append, List.length_take]
        omega
      have hfree : s₁.freeblock ≤ fssize := by
        rcases hfound.last with hle | heq
        · exact hle
        · omega
      rw [← hlen']
      refine (ih happ (by rw [update_self, hlen']) hfree ?_ ?_ ?_).post
        fun r' t s' hr' => ?_
      · rw [List.length_drop]
        omega
      · rw [hlen', List.length_drop]
        intro hfull
        refine hdie (Nat.lt_of_lt_of_le hfull ?_)
        rw [Image.setBlock_freeblock]
        omega
      · rw [hlen', List.length_drop]
        intro hlong
        exact hassert (by omega)
      · obtain ⟨rfl, hr'⟩ := hr'
        have hle₂ := hr'.le
        have heq := hr'.off_eq
        have happ' := hr'.appending
        rw [hlen', List.length_drop] at heq hle₂ happ'
        rw [update_self, update_idem, update_idem, List.append_assoc,
          List.take_append_drop, show (F inum).length + m + (p.length - m) =
            (F inum).length + p.length by omega] at happ'
        rw [Image.setBlock_freeblock] at hle₂
        exact ⟨rfl, happ', by omega, hkept.trans hr'.kept, hr'.free, by omega⟩
    · exact hassert (by
        have := (Nat.le_div_iff_mul_le (by decide : 0 < bsize)).1 (Nat.not_lt.1 hmax)
        omega)
    · have hnil : p = [] := List.length_eq_zero_iff.1 (by omega)
      subst hnil
      rw [ends_pure]
      refine ⟨rfl, ?_, rfl, .refl, hle, Nat.le_add_right _ _⟩
      rw [List.append_nil, update_eq_self, List.length_nil, Nat.add_zero, ← hL, update_eq_self]
      exact h

end Append

/-! ### Between the calls -/

/-- The block that holds the super block. -/
def superblock : Block := Bytes.zero.splice 0 32 sb.bytes

/-- The inode was written to the blocks for inodes. -/
def InArea : Event → Prop
  | .winode sec => sb.inodestart ≤ sec ∧ sec < sb.bmapstart

/-- The file with inode `inum` holds the bytes `F inum`; the inodes below `freeinode` are in use. -/
structure Ready (s : Image) (F : ℕ → List Byte) : Prop where
  len : s.len = fssize
  free : s.freeblock ≤ fssize
  laid : Laid s.blocks s.freeblock (area.inode s.blocks) F fun inum => (F inum).length
  size : ∀ inum, (area.inode s.blocks inum).size = (F inum).length
  type : ∀ inum, 0 < inum → inum < s.freeinode →
    (area.inode s.blocks inum).type = if inum = rootino then tDir else tFile
  fresh : ∀ inum, s.freeinode ≤ inum → area.inode s.blocks inum = .zero
  super : s.blocks 1 = superblock

section Between

variable {s s₁ s' : Image} {din : Dinode} {inum n : ℕ} {F : ℕ → List Byte} {L : ℕ → ℕ}
  {p : List Byte} {E : Failure → Prop} {t : List Event}

theorem iblock_lt (h : inum < area.ninodes) : sb.iblock inum < sb.bmapstart :=
  area_sound.inodes inum h

theorem bmapstart_lt : sb.bmapstart < nmeta := by decide

theorem bmapstart_lt_fssize : sb.bmapstart < fssize := by decide

theorem inodestart_le : sb.inodestart ≤ sb.iblock inum := Nat.le_add_left _ _

theorem rinode_runs (hlen : s.len = fssize) (h : inum < area.ninodes) :
    Runs (rinode inum) s (area.inode s.blocks inum) [] s := by
  have hlt : sb.iblock inum < s.len := by
    rw [hlen]
    exact Nat.lt_trans (iblock_lt h) bmapstart_lt_fssize
  have hread : Runs (rsect (sb.iblock inum)) s (s.blocks (sb.iblock inum)) [] s := by
    rw [rsect, (get_runs s).silent_iff, if_pos hlt]
    exact runs_pure.2 ⟨rfl, rfl, rfl⟩
  rw [rinode, hread.silent_iff, Superblock.inode_of_lt h]
  exact runs_pure.2 ⟨rfl, rfl, rfl⟩

/-- An inode was written. -/
structure WroteInode (s : Image) (inum : ℕ) (din : Dinode) (s' : Image) : Prop where
  inode : area.inode s'.blocks = update (area.inode s.blocks) inum din
  blocks : ∀ b, b < sb.inodestart ∨ sb.bmapstart ≤ b → s'.blocks b = s.blocks b
  len : s'.len = s.len
  freeblock : s'.freeblock = s.freeblock
  freeinode : s'.freeinode = s.freeinode

theorem winode_ends (hlen : s.len = fssize) (h : inum < area.ninodes) (hdin : din.Fits) :
    Ends E (winode inum din) s fun _ t s' => (∀ e ∈ t, InArea e) ∧ WroteInode s inum din s' := by
  have hlt := iblock_lt h
  have hlt' : sb.iblock inum < s.len := by
    rw [hlen]
    exact Nat.lt_trans hlt bmapstart_lt_fssize
  rw [winode, ends_bind]
  refine rsect_ends (fun hge => by omega) fun _ => ?_
  simp only [ends_bind, ends_emit, wsect, ends_modify, List.nil_append, List.append_nil,
    List.mem_singleton, forall_eq]
  refine ⟨⟨inodestart_le, hlt⟩, ?_, ?_, ?_, rfl, rfl⟩
  · have hstored : area.inode
        ((Fs.State.boot s.blocks fun _ => false).setDinode area inum din).disk =
        update (area.inode s.blocks) inum din := Superblock.inode_setDinode h hdin
    exact hstored
  · intro b hb
    have hle : sb.inodestart ≤ sb.iblock inum := inodestart_le
    exact update_of_ne (by omega) _ _
  · rw [Image.setBlock_len]
    omega

/-- The files are where they were after an inode with the same addresses was written. -/
theorem WroteInode.laid {din' : Dinode} (hw : WroteInode s inum din s')
    (h : Laid s.blocks s.freeblock (update (area.inode s.blocks) inum din') F L)
    (haddrs : din.addrs = din'.addrs) : Laid s'.blocks s'.freeblock (area.inode s'.blocks) F L := by
  rw [hw.freeblock]
  refine h.congr_addrs (fun inum' => ?_) (area.inode_fits _) fun b hb => hw.blocks b (.inr ?_)
  · rw [hw.inode]
    rcases eq_or_ne inum' inum with rfl | hne
    · rw [update_self, update_self, haddrs]
    · rw [update_of_ne hne, update_of_ne hne]
  · exact Nat.le_trans (Nat.le_of_lt bmapstart_lt) hb

/-- No file is larger than the largest one. -/
theorem Laid.length_le {disk : Disk} {fb : ℕ} {I : ℕ → Dinode} (h : Laid disk fb I F L) :
    L inum ≤ maxfile * bsize := by
  by_contra hgt
  have hlt := lt_maxfile_of_refs ((h.has_iff inum maxfile).2 (by omega))
  omega

/-- The in-memory copy of an inode that was just read. -/
theorem Ready.appending (h : Ready s F) (inum : ℕ) :
    Appending s inum (area.inode s.blocks inum) F fun inum => (F inum).length := by
  refine ⟨h.len, ?_⟩
  rw [update_eq_self]
  exact h.laid

/-- **`iappend`** appends to one file, and leaves the others alone. -/
theorem iappend_ends (h : Ready s F) (hpos : 0 < inum) (hinum : inum < s.freeinode)
    (harea : s.freeinode ≤ area.ninodes)
    (hdie : fssize < s.freeblock + 2 * touched (F inum).length p.length → E .die)
    (hassert : maxfile * bsize < (F inum).length + p.length → E .assertion) :
    Ends E (iappend inum p) s fun _ t s' => (∀ e ∈ t, InArea e) ∧
      Ready s' (update F inum (F inum ++ p)) ∧ s'.freeinode = s.freeinode ∧
        s'.freeblock ≤ s.freeblock + 2 * touched (F inum).length p.length := by
  have hlt : inum < area.ninodes := by omega
  rw [iappend, ends_bind, (rinode_runs h.len hlt).ends_iff, h.size, ends_bind]
  refine (appendLoop_ends (h.appending inum) rfl h.free (Nat.lt_succ_self _) hdie hassert).post ?_
  rintro r t s₁ ⟨rfl, hr⟩
  have happ := hr.appending
  have hkept := hr.kept.inode
  -- the new length fits into the field
  have hlength : r.2 < 2 ^ 32 := by
    have hle : update (fun inum => (F inum).length) inum _ inum ≤ maxfile * bsize :=
      happ.laid.length_le
    have hmax : maxfile * bsize < 2 ^ 32 := by decide
    rw [update_self, ← hr.off_eq] at hle
    omega
  refine (winode_ends happ.len hlt (happ.fits.withSize hlength)).post ?_
  rintro _ t s' ⟨ht, hw⟩
  refine ⟨ht, ⟨?_, ?_, ?_, ?_, ?_, ?_, ?_⟩, ?_, ?_⟩
  · rw [hw.len, happ.len]
  · rw [hw.freeblock]
    exact hr.free
  · refine (hw.laid happ.laid rfl).congr_length fun inum' bn => ?_
    rcases eq_or_ne inum' inum with rfl | hne
    · rw [update_self, update_self, List.length_append]
    · rw [update_of_ne hne, update_of_ne hne]
  · intro inum'
    rw [hw.inode, hkept]
    rcases eq_or_ne inum' inum with rfl | hne
    · rw [update_self, update_self, List.length_append]
      exact hr.off_eq
    · rw [update_of_ne hne, update_of_ne hne]
      exact h.size inum'
  · intro inum' h0 hlt'
    rw [hw.freeinode, hr.kept.freeinode] at hlt'
    rw [hw.inode, hkept, ← h.type inum' h0 hlt']
    rcases eq_or_ne inum' inum with rfl | hne
    · rw [update_self]
      exact hr.kept.type
    · rw [update_of_ne hne]
  · intro inum' hge
    rw [hw.freeinode, hr.kept.freeinode] at hge
    rw [hw.inode, hkept, update_of_ne (by omega)]
    exact h.fresh inum' hge
  · rw [hw.blocks 1 (.inl (by decide)), hr.kept.metadata 1 (by decide)]
    exact h.super
  · rw [hw.freeinode, hr.kept.freeinode]
  · rw [hw.freeblock]
    exact hr.le

/-- **`ialloc`** takes the next inode. -/
theorem ialloc_ends {type : ℕ} (h : Ready s F) (hlt : s.freeinode < area.ninodes)
    (htype : type = if s.freeinode = rootino then tDir else tFile) :
    Ends E (ialloc type) s fun inum t s' => (∀ e ∈ t, InArea e) ∧ inum = s.freeinode ∧
      Ready s' F ∧ s'.freeinode = s.freeinode + 1 ∧ s'.freeblock = s.freeblock := by
  have hzero := h.fresh s.freeinode (Nat.le_refl _)
  have htype_lt : type < 2 ^ 16 := by
    rw [htype]
    split_ifs
    · decide
    · decide
  have hfits : ((Dinode.zero.withType type).withNlink 1).Fits :=
    { Dinode.zero_fits with type := htype_lt, nlink := (by decide : 1 < 2 ^ 16) }
  have hlen : s.takeInode.len = fssize := h.len
  unfold ialloc
  simp only [ends_bind, ends_get, ends_modify, ends_pure, List.nil_append, List.append_nil]
  refine (winode_ends hlen hlt hfits).post ?_
  rintro _ t s' ⟨ht, hw⟩
  have hinode := hw.inode
  rw [Image.takeInode_blocks] at hinode
  refine ⟨ht, trivial, ⟨?_, ?_, ?_, ?_, ?_, ?_, ?_⟩, hw.freeinode, hw.freeblock⟩
  · rw [hw.len, hlen]
  · rw [hw.freeblock]
    exact h.free
  · have hsame := h.laid
    rw [← update_eq_self s.freeinode (area.inode s.blocks), hzero] at hsame
    exact hw.laid hsame rfl
  · intro inum
    rw [hinode]
    rcases eq_or_ne inum s.freeinode with rfl | hne
    · rw [update_self, ← h.size, hzero]
      rfl
    · rw [update_of_ne hne]
      exact h.size inum
  · intro inum h0 hlt'
    rw [hw.freeinode, Image.takeInode_freeinode] at hlt'
    rw [hinode]
    rcases eq_or_ne inum s.freeinode with rfl | hne
    · rw [update_self, ← htype]
      rfl
    · rw [update_of_ne hne]
      exact h.type inum h0 (by omega)
  · intro inum hge
    rw [hw.freeinode, Image.takeInode_freeinode] at hge
    rw [hinode, update_of_ne (by omega)]
    exact h.fresh inum (by omega)
  · rw [hw.blocks 1 (.inl (by decide))]
    exact h.super

/-- The loop that reads a file. -/
theorem appendReads_ends {reads : List (List Byte)} (h : Ready s F) (hpos : 0 < inum)
    (hinum : inum < s.freeinode) (harea : s.freeinode ≤ area.ninodes) (hE : reads ≠ [] → ∀ e, E e) :
    Ends E (appendReads inum reads) s fun _ t s' => (∀ e ∈ t, InArea e) ∧
      Ready s' (update F inum (F inum ++ reads.flatten)) ∧ s'.freeinode = s.freeinode ∧
        (reads = [] → s'.freeblock = s.freeblock) := by
  induction reads generalizing s F with
  | nil =>
    rw [appendReads, ends_pure]
    refine ⟨fun _ he => absurd he List.not_mem_nil, ?_, rfl, fun _ => rfl⟩
    rw [List.flatten_nil, List.append_nil, update_eq_self]
    exact h
  | cons buf reads ih =>
    have hE' : ∀ e, E e := hE (List.cons_ne_nil _ _)
    rw [appendReads, ends_bind]
    refine (iappend_ends h hpos hinum harea (fun _ => hE' _) fun _ => hE' _).post ?_
    rintro _ t₁ s₁ ⟨ht₁, hready, hfree, -⟩
    refine (ih hready (by omega) (by omega) fun _ => hE').post ?_
    rintro _ t₂ s₂ ⟨ht₂, hready₂, hfree₂, -⟩
    refine ⟨?_, ?_, by omega, fun hnil => absurd hnil (List.cons_ne_nil _ _)⟩
    · intro e he
      rcases List.mem_append.1 he with he | he
      · exact ht₁ e he
      · exact ht₂ e he
    · rwa [update_self, update_idem, List.append_assoc, ← List.flatten_cons] at hready₂

/-! ### The files that were added -/

/-- The bytes of the root directory. -/
def rootBytes (files : List InputFile) : List Byte :=
  dirent dot rootino ++ dirent dotdot rootino ++
    (files.mapIdx fun i f => dirent f.stripped (i + 2)).flatten

/-- The contents of all inodes: the root directory, and then the files in order. -/
def layout (files : List InputFile) : ℕ → List Byte
  | 0 => []
  | 1 => rootBytes files
  | i + 2 => (files[i]?.map InputFile.contents).getD []

/-- The root directory and the given files are in the image. -/
structure Built (files : List InputFile) (s : Image) : Prop where
  ready : Ready s (layout files)
  freeinode : s.freeinode = files.length + 2

@[simp] theorem length_dirent {name : List Byte} : (dirent name inum).length = direntSize := by
  simp [dirent]

section Files

variable {files done : List InputFile} {f : InputFile}

theorem rootBytes_concat :
    rootBytes (files ++ [f]) = rootBytes files ++ dirent f.stripped (files.length + 2) := by
  simp [rootBytes, List.mapIdx_append]

theorem length_rootBytes : (rootBytes files).length = direntSize * (files.length + 2) := by
  induction files using List.reverseRecOn with
  | nil => rfl
  | append_singleton files f ih =>
    rw [rootBytes_concat, List.length_append, length_dirent, ih, List.length_append,
      List.length_singleton]
    simp only [direntSize, dirsiz]
    omega

theorem layout_of_le (h : files.length + 2 ≤ inum) : layout files inum = [] := by
  match inum, h with
  | i + 2, h => rw [layout, List.getElem?_eq_none (by omega)]; rfl

/-- The layout with one more file. -/
theorem layout_concat : layout (files ++ [f]) =
    update (update (layout files) rootino
      (layout files rootino ++ dirent f.stripped (files.length + 2))) (files.length + 2)
        f.contents := by
  funext inum
  match inum with
  | 0 => rfl
  | 1 =>
    rw [update_of_ne (by omega), show (1 : ℕ) = rootino from rfl, update_self]
    exact rootBytes_concat
  | i + 2 =>
    have hroot : i + 2 ≠ rootino := by
      simp only [rootino]
      omega
    rcases eq_or_ne i files.length with rfl | hne
    · simp [layout]
    · rw [update_of_ne (by omega), update_of_ne hroot, layout, layout, List.getElem?_append]
      split_ifs with hlt
      · rfl
      · rw [List.getElem?_eq_none (by simp; omega), List.getElem?_eq_none (by omega)]

/-- An entry of the root directory takes one block. -/
theorem touched_dirent {m : ℕ} : touched (direntSize * m) direntSize = 1 := by
  rw [touched, if_neg (by decide)]
  simp only [direntSize, dirsiz, bsize]
  omega

/-- Files with no bytes, whose names are valid. -/
def InputFile.Empty (f : InputFile) : Prop := f.reads = [] ∧ slash ∉ f.shortname

/-- **Adding a file.** -/
theorem addFile_ends (h : Built done s) (hlen : done.length + 2 < area.ninodes)
    (hE : ¬ (f.Empty ∧ s.freeblock + 2 ≤ fssize) → ∀ e, E e) :
    Ends E (addFile rootino f) s fun _ t s' => (∀ e ∈ t, InArea e) ∧ Built (done ++ [f]) s' ∧
      (f.Empty → s'.freeblock ≤ s.freeblock + 2) := by
  have hnot : s.freeinode ≠ rootino := by
    rw [h.freeinode, rootino]
    omega
  have hroot : layout done rootino = rootBytes done := rfl
  rw [addFile]
  split_ifs with hslash
  · exact hE (fun hsmall => hsmall.1.2 hslash) _
  · rw [ends_bind]
    refine (ialloc_ends h.ready (by rwa [h.freeinode]) (by rw [if_neg hnot])).post ?_
    rintro inum t₁ s₁ ⟨ht₁, rfl, hready₁, hfi₁, hfb₁⟩
    rw [h.freeinode] at hfi₁ ⊢
    rw [ends_bind]
    refine (iappend_ends hready₁ (by decide) (by rw [hfi₁, rootino]; omega) (by omega) ?_ ?_).post
      fun _ t₂ s₂ h₂ => ?_
    · rw [hroot, length_rootBytes, length_dirent, touched_dirent]
      intro hfull
      exact hE (fun hsmall => by omega) _
    · rw [hroot, length_rootBytes, length_dirent]
      intro hlong
      have harea : area.ninodes = 208 := rfl
      simp only [maxfile, ndirect, nindirect, bsize, direntSize, dirsiz] at hlong
      omega
    obtain ⟨ht₂, hready₂, hfi₂, hfb₂⟩ := h₂
    rw [hroot, length_rootBytes, length_dirent, touched_dirent] at hfb₂
    refine (appendReads_ends hready₂ (by omega) (by omega) (by omega) ?_).post fun _ t₃ s₃ h₃ => ?_
    · intro hreads
      exact hE fun hsmall => hreads hsmall.1.1
    obtain ⟨ht₃, hready₃, hfi₃, hfb₃⟩ := h₃
    refine ⟨?_, ⟨?_, ?_⟩, ?_⟩
    · intro e he
      rcases List.mem_append.1 he with he | he
      · exact ht₁ e he
      · rcases List.mem_append.1 he with he | he
        · exact ht₂ e he
        · exact ht₃ e he
    · have hnew : (done.length + 2) ≠ rootino := by
        rw [rootino]
        omega
      rw [update_of_ne hnew, layout_of_le (Nat.le_refl _), List.nil_append] at hready₃
      rw [layout_concat]
      exact hready₃
    · rw [List.length_append, List.length_singleton]
      omega
    · intro hempty
      have := hfb₃ hempty.1
      omega

/-- **Adding the files**, one after the other. -/
theorem addFiles_ends (h : Built done s) (hlen : done.length + files.length + 2 ≤ area.ninodes)
    (hE : ¬ ((∀ f ∈ files, f.Empty) ∧ s.freeblock + 2 * files.length ≤ fssize) → ∀ e, E e) :
    Ends E (addFiles rootino files) s fun _ t s' =>
      (∀ e ∈ t, InArea e) ∧ Built (done ++ files) s' := by
  induction files generalizing done s with
  | nil =>
    rw [addFiles, ends_pure, List.append_nil]
    exact ⟨fun _ he => absurd he List.not_mem_nil, h⟩
  | cons f files ih =>
    rw [List.length_cons] at hlen hE
    rw [addFiles, ends_bind]
    refine (addFile_ends h (by omega) fun hnot => hE fun hsmall => hnot ?_).post
      fun _ t₁ s₁ h₁ => ?_
    · exact ⟨hsmall.1 f List.mem_cons_self, by omega⟩
    obtain ⟨ht₁, hbuilt, hfb⟩ := h₁
    refine (ih hbuilt (by rw [List.length_append, List.length_singleton]; omega) fun hnot =>
      hE fun hsmall => hnot ?_).post fun _ t₂ s₂ h₂ => ?_
    · have := hfb (hsmall.1 f List.mem_cons_self)
      exact ⟨fun f' hf' => hsmall.1 f' (List.mem_cons_of_mem _ hf'), by omega⟩
    obtain ⟨ht₂, hbuilt₂⟩ := h₂
    rw [List.append_assoc, List.singleton_append] at hbuilt₂
    refine ⟨fun e he => ?_, hbuilt₂⟩
    rcases List.mem_append.1 he with he | he
    · exact ht₁ e he
    · exact ht₂ e he

end Files

/-! ### The whole program -/

/-- The loop that writes the zeros, from block `i` on. -/
theorem zeros_runs (i n : ℕ) : Runs (forRange (fun i => wsect i .zero) i n)
    ⟨fun _ => .zero, i, 1, nmeta⟩ () [] ⟨fun _ => .zero, i + n, 1, nmeta⟩ := by
  induction n generalizing i with
  | zero => exact runs_pure.2 ⟨rfl, rfl, rfl⟩
  | succ n ih =>
    have hwrite : Runs (wsect i .zero) ⟨fun _ => .zero, i, 1, nmeta⟩ () []
        ⟨fun _ => .zero, i + 1, 1, nmeta⟩ := by
      rw [wsect, runs_modify, Image.setBlock, update_eq_self_iff.2 rfl,
        Nat.max_eq_right (Nat.le_succ i)]
      exact ⟨rfl, rfl⟩
    rw [forRange_succ, hwrite.silent_iff, Nat.add_comm n, ← Nat.add_assoc]
    exact ih (i + 1)

/-- The image after `format`. -/
def formatted : Image := ⟨update (fun _ => .zero) 1 superblock, fssize, 1, nmeta⟩

theorem format_runs : Runs format start () [] formatted := by
  have hzeros := zeros_runs 0 fssize
  rw [Nat.zero_add] at hzeros
  rw [format, start, hzeros.silent_iff, wsect, runs_modify, Image.setBlock,
    Nat.max_eq_left (by decide)]
  exact ⟨rfl, rfl⟩

@[simp] theorem formatted_blocks :
    formatted.blocks = update (fun _ => .zero) 1 superblock := rfl

theorem formatted_ready : Ready formatted (fun _ => []) := by
  have hinode : ∀ inum, area.inode formatted.blocks inum = .zero := by
    intro inum
    rcases Nat.lt_or_ge inum area.ninodes with hlt | hge
    · have hne : area.iblock inum ≠ 1 := by
        have hle : sb.inodestart ≤ area.iblock inum := inodestart_le
        have : 1 < sb.inodestart := by decide
        omega
      rw [Superblock.inode_of_lt hlt, formatted_blocks, update_of_ne hne, Dinode.read_zero]
    · exact Superblock.inode_of_le hge
  have hrefs : ∀ r, refs formatted.blocks (area.inode formatted.blocks) r = 0 := by
    intro r
    cases r with
    | addr inum i => rw [Fs.refs_addr, hinode]; rfl
    | entry inum j => exact Fs.refs_entry_of_zero (by rw [hinode]; rfl)
  refine ⟨rfl, by decide, ?_, ?_, ?_, ?_, ?_⟩
  · refine ⟨.of_none hrefs (by decide) (by decide) fun b hb => decide_eq_true hb, ?_,
      area.inode_fits _, ?_, ?_, ?_⟩
    · intro b hle hlt
      exact absurd hle (Nat.not_le.2 hlt)
    · intro inum bn
      rw [hrefs]
      simp
    · intro inum k h0
      exact absurd (hrefs _) h0
    · intro b hb
      have hne : b ≠ 1 := by
        rintro rfl
        exact absurd hb (by decide)
      rw [formatted_blocks, update_of_ne hne]
  · intro inum
    exact congrArg Dinode.size (hinode inum)
  · intro inum h0 hlt
    exact absurd hlt (Nat.not_lt.2 h0)
  · intro inum _
    exact hinode inum
  · rw [formatted_blocks, update_self]

theorem bit_bitmap {used j : ℕ} (h : used ≤ bsize * 8) :
    (bitmap used).bit j = decide (j < used) := by
  induction used with
  | zero => exact Bytes.bit_zero
  | succ used ih =>
    have hbyte : used / 8 < bsize := by
      simp only [bsize] at *
      omega
    rw [bitmap, List.range_succ, List.foldl_append, List.foldl_cons, List.foldl_nil,
      Bytes.bit_setBit hbyte, ← bitmap, ih (by omega), ← Bool.decide_or]
    refine decide_eq_decide.2 ?_
    omega

/-- What `mkfs` leaves when it exits with status 0. -/
structure Finished (files : List InputFile) (t : List Event) (s : Image) : Prop where
  trace : ∀ e ∈ t, InArea e
  free : s.freeblock ≤ fssize
  laid : Laid s.blocks s.freeblock (area.inode s.blocks) (layout files) fun inum =>
    (layout files inum).length
  size : ∀ inum ≠ rootino, (area.inode s.blocks inum).size = (layout files inum).length
  root_size : (area.inode s.blocks rootino).size = ((rootBytes files).length / bsize + 1) * bsize
  type : ∀ inum, 0 < inum → inum < files.length + 2 →
    (area.inode s.blocks inum).type = if inum = rootino then tDir else tFile
  super : s.blocks 1 = superblock
  bitmap : s.blocks sb.bmapstart = bitmap s.freeblock

/-- The end of `main`. -/
theorem finish_ends {files : List InputFile} (h : Built files s)
    (hlen : files.length + 2 ≤ area.ninodes) :
    Ends E (do fixRoot rootino; let s ← get; balloc s.freeblock) s fun _ t s' =>
      Finished files t s' := by
  have hroot : rootino < area.ninodes := by decide
  have hmax : (rootBytes files).length ≤ 3328 := by
    have harea : area.ninodes = 208 := rfl
    rw [length_rootBytes]
    simp only [direntSize, dirsiz]
    omega
  have hsize : ((rootBytes files).length / bsize + 1) * bsize < 2 ^ 32 := by
    simp only [bsize]
    omega
  rw [ends_bind, fixRoot, ends_bind, (rinode_runs h.ready.len hroot).ends_iff, h.ready.size]
  have hfits : ((area.inode s.blocks rootino).withSize
      ((layout files rootino).length / bsize * bsize + bsize)).Fits := by
    refine (area.inode_fits _ _).withSize ?_
    rw [← Nat.succ_mul]
    exact hsize
  rw [Nat.succ_mul]
  refine (winode_ends h.ready.len hroot hfits).post ?_
  rintro _ t s₁ ⟨ht, hw⟩
  have hused : s₁.freeblock < bsize * 8 := by
    rw [hw.freeblock]
    exact Nat.lt_of_le_of_lt h.ready.free (by decide)
  simp only [ends_bind, ends_get, balloc, if_pos hused, wsect, ends_modify, List.nil_append,
    List.append_nil]
  have hlaid := hw.laid (h.ready.appending rootino).laid rfl
  -- the block of the free map is none of the other blocks
  have hother : ∀ b, b ≠ sb.bmapstart →
      update s₁.blocks sb.bmapstart (bitmap s₁.freeblock) b = s₁.blocks b :=
    fun b hb => update_of_ne hb _ _
  have hinode : area.inode (update s₁.blocks sb.bmapstart (bitmap s₁.freeblock)) =
      area.inode s₁.blocks :=
    area_sound.inode_congr fun b hb => hother b (Nat.ne_of_lt hb)
  refine ⟨ht, ?_, ?_, ?_, ?_, ?_, ?_, ?_⟩
  · rw [Image.setBlock_freeblock, hw.freeblock]
    exact h.ready.free
  · refine hlaid.congr_addrs (fun inum => ?_) (area.inode_fits _) fun b hb => hother b ?_
    · rw [Image.setBlock_blocks, hinode]
    · exact Nat.ne_of_gt (Nat.lt_of_lt_of_le bmapstart_lt hb)
  · intro inum hne
    rw [Image.setBlock_blocks, hinode, hw.inode, update_of_ne hne]
    exact h.ready.size inum
  · rw [Image.setBlock_blocks, hinode, hw.inode, update_self, Nat.succ_mul]
    rfl
  · intro inum h0 hlt
    rw [Image.setBlock_blocks, hinode, hw.inode, ← h.ready.type inum h0 (by rwa [h.freeinode])]
    rcases eq_or_ne inum rootino with rfl | hne
    · rw [update_self]
      rfl
    · rw [update_of_ne hne]
  · rw [Image.setBlock_blocks, hother 1 (by decide), hw.blocks 1 (.inl (by decide))]
    exact h.ready.super
  · rw [Image.setBlock_blocks, Image.setBlock_freeblock, update_self]

/-- **`main` from the root directory on**: if it returns, the files are in the image; for a small
number of empty files it does. -/
theorem populate_ends {files : List InputFile} (h : Ready s fun _ => [])
    (hfi₀ : s.freeinode = rootino)
    (hfb₀ : s.freeblock = nmeta) (hlen : files.length + 2 ≤ area.ninodes) :
    Ends (fun _ => ¬ ∀ f ∈ files, f.Empty) (populate files) s fun _ t s' =>
      Finished files t s' := by
  have harea : area.ninodes = 208 := rfl
  have hroot_lt : s.freeinode < area.ninodes := by
    rw [hfi₀]
    decide
  rw [populate, ends_bind]
  refine (ialloc_ends h hroot_lt (by rw [if_pos hfi₀])).post ?_
  rintro inum t₁ s₁ ⟨ht₁, hinum, hready₁, hfi₁, hfb₁⟩
  have hroot : inum = rootino := hinum.trans hfi₀
  have hfi : s₁.freeinode = 2 := by rw [hfi₁, hfi₀, rootino]
  have hfb : s₁.freeblock = nmeta := hfb₁.trans hfb₀
  have hsmall : nmeta + 4 + 2 * 206 ≤ fssize := by decide
  rw [hroot, if_pos rfl, ends_bind]
  -- the two entries for the directory itself
  refine (iappend_ends hready₁ (by decide) (by rw [hfi]; decide) (by omega) ?_ ?_).post
    fun _ t₂ s₂ h₂ => ?_
  · rw [length_dirent, List.length_nil, ← Nat.mul_zero direntSize, touched_dirent]
    omega
  · intro hlong
    exact absurd hlong (by rw [length_dirent]; decide)
  rw [length_dirent, List.length_nil, ← Nat.mul_zero direntSize, touched_dirent,
    List.nil_append] at h₂
  obtain ⟨ht₂, hready₂, hfi₂, hfb₂⟩ := h₂
  have hlen₂ : (update (fun _ => []) rootino (dirent dot rootino) rootino).length =
      direntSize * 1 := by
    rw [update_self, length_dirent, Nat.mul_one]
  rw [ends_bind]
  refine (iappend_ends hready₂ (by decide) (by rw [hfi₂, hfi]; decide) (by omega) ?_ ?_).post
    fun _ t₃ s₃ h₃ => ?_
  · rw [hlen₂, length_dirent, touched_dirent]
    omega
  · intro hlong
    exact absurd hlong (by rw [hlen₂, length_dirent]; decide)
  rw [hlen₂, length_dirent, touched_dirent, update_self, update_idem] at h₃
  obtain ⟨ht₃, hready₃, hfi₃, hfb₃⟩ := h₃
  have hbuilt : Built [] s₃ := by
    refine ⟨?_, by rw [hfi₃, hfi₂, hfi]; rfl⟩
    have hlayout : layout [] = update (fun _ => []) rootino (dirent dot rootino ++
        dirent dotdot rootino) := by
      funext inum
      match inum with
      | 0 => rfl
      | 1 => exact List.append_nil _
      | i + 2 => rfl
    rw [hlayout]
    exact hready₃
  rw [ends_bind]
  refine (addFiles_ends hbuilt (by simpa using hlen) fun hnot _ hempty =>
    hnot ⟨hempty, by omega⟩).post ?_
  rintro _ t₄ s₄ ⟨ht₄, hbuilt₄⟩
  rw [List.nil_append] at hbuilt₄
  refine (finish_ends hbuilt₄ hlen).post fun _ t₅ s₅ h₅ => { h₅ with trace := fun e he => ?_ }
  simp only [List.mem_append] at he
  rcases he with he | he | he | he | he
  · exact ht₁ e he
  · exact ht₂ e he
  · exact ht₃ e he
  · exact ht₄ e he
  · exact h₅.trace e he

/-- **If `mkfs` exits with status 0**, the files are in the image. -/
theorem Finished.of_runs {files : List InputFile} (hrun : Runs (main files) start () t s)
    (hlen : files.length + 2 ≤ area.ninodes) : Finished files t s := by
  rw [main, format_runs.silent_iff] at hrun
  have hready := formatted_ready
  have hfi : formatted.freeinode = rootino := rfl
  have hfb : formatted.freeblock = nmeta := rfl
  generalize formatted = s₀ at hrun hready hfi hfb
  exact hrun.ends_iff.1 (populate_ends hready hfi hfb hlen)

/-- `mkfs` exits with status 0 if the files are empty. -/
theorem main_runs_of_empty {files : List InputFile} (hempty : ∀ f ∈ files, f.Empty)
    (hlen : files.length + 2 ≤ area.ninodes) : ∃ t s, Runs (main files) start () t s := by
  have hready := formatted_ready
  have hfi : formatted.freeinode = rootino := rfl
  have hfb : formatted.freeblock = nmeta := rfl
  have hmain : ∀ t s, Runs (populate files) formatted () t s → Runs (main files) start () t s := by
    intro t s hrun
    rwa [main, format_runs.silent_iff]
  generalize formatted = s₀ at hmain hready hfi hfb
  have hends : Ends (fun _ => False) (populate files) s₀ fun _ t s => Finished files t s :=
    (populate_ends hready hfi hfb hlen).mono (fun _ hnot => hnot hempty) fun _ _ _ hQ => hQ
  obtain ⟨_, t, s, hrun, -⟩ := hends.exists_runs
  exact ⟨t, s, hmain t s hrun⟩

end Between

end RaidSystem.Mkfs
