/-
**Who refers to a block.**

A block of the data area is referred to by an address of an inode or by an entry of an indirect
block.  This module says what the references are, how the elementary changes of the disk and of an
inode change them, and that `bmap` keeps them in order: a block that `bmap` allocates has no owner
before, and every block that had one keeps it.

In the middle of a call the inode that the call works on differs from its copy on the disk.  The
references are then those of the inode in the table and of the other inodes on the disk.

Main definitions:

* `BlockRef`, `refs` — the references, and the blocks they are to;
* `blockRef` — the reference for block number `bn` of a file;
* `Open` — every block has one owner, in the middle of a call that works on an inode;
* `Grown` — references were added to an inode, and nothing else has changed;
* `Consistent` — every block has one owner, between two calls.

Main results:

* `balloc_ends` — a free block is marked and zeroed, or there is none;
* `bmap_ends` — **`bmap` returns the block with the given number**, and keeps what there was;
* `Consistent.closed` — a call that stores the inode at its end leaves the file system in order.
-/

import RaidSystem.FileSystem
import RaidSystem.Ownership
import RaidSystem.Triples

set_option autoImplicit false

namespace RaidSystem.Fs

open Prog Function

/-! ### References -/

/-- Address number `i` of an inode, or entry number `j` of its indirect block. -/
inductive BlockRef
  | addr (inum i : ℕ)
  | entry (inum j : ℕ)
  deriving DecidableEq

namespace BlockRef

/-- The inode that refers to the block. -/
def inum : BlockRef → ℕ
  | .addr inum _ => inum
  | .entry inum _ => inum

/-- The block holds bytes of the file, and not addresses. -/
def IsData : BlockRef → Prop
  | .addr _ i => i ≠ ndirect
  | .entry _ _ => True

end BlockRef

/-- The block that a reference is to, or `0`. -/
def refs (disk : Disk) (inodes : ℕ → Dinode) : BlockRef → ℕ
  | .addr inum i => (inodes inum).addrs i
  | .entry inum j =>
    if (inodes inum).addrs ndirect = 0 then 0 else word (disk ((inodes inum).addrs ndirect)) j

/-- The reference for block number `bn` of a file. -/
def blockRef (inum bn : ℕ) : BlockRef :=
  if bn < ndirect then .addr inum bn else .entry inum (bn - ndirect)

section Refs

variable {disk disk' : Disk} {inodes : ℕ → Dinode} {inum i j v ind bn : ℕ} {d : Block}

@[simp] theorem refs_addr : refs disk inodes (.addr inum i) = (inodes inum).addrs i := rfl

theorem refs_entry (h : (inodes inum).addrs ndirect ≠ 0) :
    refs disk inodes (.entry inum j) = word (disk ((inodes inum).addrs ndirect)) j := if_neg h

theorem refs_entry_of_zero (h : (inodes inum).addrs ndirect = 0) :
    refs disk inodes (.entry inum j) = 0 := if_pos h

@[simp] theorem blockRef_inum : (blockRef inum bn).inum = inum := by
  unfold blockRef
  split_ifs <;> rfl

theorem blockRef_isData : (blockRef inum bn).IsData := by
  unfold blockRef
  split_ifs with h
  · exact Nat.ne_of_lt h
  · trivial

theorem blockRef_inj {bn' : ℕ} (h : blockRef inum bn = blockRef inum bn') : bn = bn' := by
  unfold blockRef at h
  split_ifs at h with h₁ h₂ h₂
  · exact (BlockRef.addr.inj h).2
  · have := (BlockRef.entry.inj h).2
    omega

theorem inum_eq_of_blockRef {inum' bn' : ℕ} (h : blockRef inum bn = blockRef inum' bn') :
    inum = inum' := by
  have hinum := congrArg BlockRef.inum h
  rwa [blockRef_inum, blockRef_inum] at hinum

/-- There is no block beyond the largest file. -/
theorem lt_maxfile_of_refs (h : refs disk inodes (blockRef inum bn) ≠ 0) : bn < maxfile := by
  by_contra hge
  simp only [maxfile, Nat.not_lt] at hge
  refine h ?_
  rw [blockRef, if_neg (by omega)]
  rcases eq_or_ne ((inodes inum).addrs ndirect) 0 with h0 | h0
  · exact refs_entry_of_zero h0
  · rw [refs_entry h0, word_of_le (by omega)]

/-- The references depend on the indirect blocks only. -/
theorem refs_congr (h : ∀ inum, (inodes inum).addrs ndirect ≠ 0 →
    disk' ((inodes inum).addrs ndirect) = disk ((inodes inum).addrs ndirect)) :
    refs disk' inodes = refs disk inodes := by
  funext r
  cases r with
  | addr inum i => rfl
  | entry inum j =>
    rcases eq_or_ne ((inodes inum).addrs ndirect) 0 with h0 | h0
    · rw [refs_entry_of_zero h0, refs_entry_of_zero h0]
    · rw [refs_entry h0, refs_entry h0, h inum h0]

/-- An address is stored in an inode; if it is that of the indirect block, there was none, and the
new one has no entries. -/
theorem refs_setAddr (h : i = ndirect → (inodes inum).addrs ndirect = 0 ∧ disk v = Bytes.zero) :
    refs disk (update inodes inum
      ((inodes inum).withAddrs (update (inodes inum).addrs i v))) =
      update (refs disk inodes) (.addr inum i) v := by
  funext r
  cases r with
  | addr inum' i' =>
    rcases eq_or_ne inum' inum with rfl | hinum
    · rcases eq_or_ne i' i with rfl | hi
      · simp
      · have hne : BlockRef.addr inum' i' ≠ .addr inum' i := by simpa using hi
        simp [hne, hi]
    · have hne : BlockRef.addr inum' i' ≠ .addr inum i := fun heq => hinum (BlockRef.addr.inj heq).1
      simp [hne, hinum]
  | entry inum' j =>
    rw [update_of_ne (by simp)]
    rcases eq_or_ne inum' inum with rfl | hinum
    · rcases eq_or_ne i ndirect with rfl | hi
      · obtain ⟨hold, hzero⟩ := h rfl
        simp [refs, hold, hzero]
      · simp [refs, hi.symm]
    · simp [refs, hinum]

/-- An entry is stored in an indirect block. -/
theorem refs_setWord (hind : (inodes inum).addrs ndirect = ind) (h0 : ind ≠ 0)
    (hunique : ∀ inum', (inodes inum').addrs ndirect = ind → inum' = inum) (hj : j < nindirect)
    (hv : v < 2 ^ 32) :
    refs (update disk ind (setWord (disk ind) j v)) inodes =
      update (refs disk inodes) (.entry inum j) v := by
  funext r
  cases r with
  | addr inum' i => rw [update_of_ne (by simp)]; rfl
  | entry inum' j' =>
    rcases eq_or_ne ((inodes inum').addrs ndirect) 0 with hz | hz
    · have hne : inum' ≠ inum := fun heq => h0 (by rw [← hind, ← heq, hz])
      have hne' : BlockRef.entry inum' j' ≠ .entry inum j :=
        fun heq => hne (BlockRef.entry.inj heq).1
      rw [update_of_ne hne', refs_entry_of_zero hz, refs_entry_of_zero hz]
    · rw [refs_entry hz]
      rcases eq_or_ne inum' inum with rfl | hinum
      · rw [hind, update_self, word_setWord hj hv]
        rcases eq_or_ne j' j with rfl | hj'
        · rw [if_pos rfl, update_self]
        · have hne : BlockRef.entry inum' j' ≠ .entry inum' j := by simpa using hj'
          rw [if_neg hj', update_of_ne hne, refs_entry hz, hind]
      · have hne : BlockRef.entry inum' j' ≠ .entry inum j :=
          fun heq => hinum (BlockRef.entry.inj heq).1
        have hother : (inodes inum').addrs ndirect ≠ ind := fun heq => hinum (hunique inum' heq)
        rw [update_of_ne hother, update_of_ne hne, refs_entry hz]

end Refs

/-! ### The areas of the disk -/

namespace Superblock

variable {sb : Superblock} {disk disk' : Disk} {b x inum : ℕ} {d : Block}

theorem bmapstart_le_bblock : sb.bmapstart ≤ sb.bblock b := Nat.le_add_left _ _

/-- The data area lies behind the free map. -/
theorem Sound.bmapstart_lt (hsb : sb.Sound) (h : 0 < sb.size) : sb.bmapstart < sb.datastart :=
  Nat.lt_of_le_of_lt bmapstart_le_bblock (hsb.bitmap 0 h)

/-- The inodes depend on the blocks before the free map only. -/
theorem Sound.inode_congr (hsb : sb.Sound) (h : ∀ c < sb.bmapstart, disk' c = disk c) :
    sb.inode disk' = sb.inode disk := by
  funext inum
  unfold inode
  split_ifs with hlt
  · rw [h _ (hsb.inodes inum hlt)]
  · rfl

/-- The free map depends on the blocks before the data only. -/
theorem Sound.marked_congr (hsb : sb.Sound) (hx : x < sb.size)
    (h : ∀ c, sb.bmapstart ≤ c → c < sb.datastart → disk' c = disk c) :
    sb.marked disk' x = sb.marked disk x := by
  rw [marked, marked, h _ bmapstart_le_bblock (hsb.bitmap x hx)]

theorem mod_bpb_lt : b % bpb / 8 < bsize := by
  simp only [bpb, bsize]
  omega

theorem mod_bpb_inj (h : sb.bblock x = sb.bblock b) : x % bpb = b % bpb ↔ x = b := by
  have hdiv : x / bpb = b / bpb := Nat.add_right_cancel h
  constructor
  · intro hmod
    rw [← Nat.div_add_mod x bpb, ← Nat.div_add_mod b bpb, hdiv, hmod]
  · intro hxb
    rw [hxb]

theorem marked_setBit : sb.marked (update disk (sb.bblock b)
    ((disk (sb.bblock b)).setBit (b % bpb))) x = (decide (x = b) || sb.marked disk x) := by
  rw [marked, marked]
  rcases eq_or_ne (sb.bblock x) (sb.bblock b) with h | h
  · rw [h, update_self, Bytes.bit_setBit mod_bpb_lt, decide_eq_decide.2 (mod_bpb_inj h)]
  · have hne : x ≠ b := fun hxb => h (by rw [hxb])
    rw [update_of_ne h, decide_eq_false hne, Bool.false_or]

theorem marked_clearBit : sb.marked (update disk (sb.bblock b)
    ((disk (sb.bblock b)).clearBit (b % bpb))) x = (decide (x ≠ b) && sb.marked disk x) := by
  rw [marked, marked]
  rcases eq_or_ne (sb.bblock x) (sb.bblock b) with h | h
  · have hiff : x % bpb ≠ b % bpb ↔ x ≠ b := not_congr (mod_bpb_inj h)
    rw [h, update_self, Bytes.bit_clearBit mod_bpb_lt, decide_eq_decide.2 hiff]
  · have hne : x ≠ b := fun hxb => h (by rw [hxb])
    rw [update_of_ne h, decide_eq_true hne, Bool.true_and]

theorem inode_of_lt (h : inum < sb.ninodes) :
    sb.inode disk inum = Dinode.read (disk (sb.iblock inum)) (inum % ipb) := if_pos h

theorem inode_of_le (h : sb.ninodes ≤ inum) : sb.inode disk inum = .zero :=
  if_neg (Nat.not_lt.2 h)

theorem mod_ipb_lt : inum % ipb < ipb := Nat.mod_lt _ (by decide)

/-- An inode is stored on the disk. -/
theorem inode_setDinode {s : State} {y : Dinode} (hinum : inum < sb.ninodes) (hy : y.Fits) :
    sb.inode (s.setDinode sb inum y).disk = update (sb.inode s.disk) inum y := by
  funext inum'
  rcases Nat.lt_or_ge inum' sb.ninodes with hlt | hge
  · rw [inode_of_lt hlt, State.setDinode, State.setBlock_disk]
    rcases eq_or_ne inum' inum with rfl | hne
    · rw [update_self, update_self, Dinode.read_write_self mod_ipb_lt hy]
    · rw [update_of_ne hne, inode_of_lt hlt]
      rcases eq_or_ne (sb.iblock inum') (sb.iblock inum) with h | h
      · -- another inode of the same block
        have hmod : inum % ipb ≠ inum' % ipb := by
          intro hmod
          have hdiv : inum' / ipb = inum / ipb := Nat.add_right_cancel h
          refine hne ?_
          rw [← Nat.div_add_mod inum' ipb, ← Nat.div_add_mod inum ipb, hdiv, hmod]
        rw [h, update_self, Dinode.read_write_of_ne hmod]
      · rw [update_of_ne h]
  · have hne : inum' ≠ inum := by omega
    rw [inode_of_le hge, update_of_ne hne, inode_of_le hge]

end Superblock

/-! ### Allocating a block -/

section Alloc

variable {sb : Superblock} {disk : Disk} {d : Block} {b size bi k x : ℕ}

theorem freeBit_eq_some (h : freeBit d b size bi k = some x) :
    x < size ∧ ∃ j < bi + k, x = b + j ∧ d.bit j = false := by
  induction k generalizing bi with
  | zero => cases h
  | succ k ih =>
    rw [freeBit] at h
    split_ifs at h with hlt hbit
    · obtain ⟨hx, j, hj, hrest⟩ := ih h
      exact ⟨hx, j, by omega, hrest⟩
    · cases h
      exact ⟨hlt, bi, by omega, rfl, Bool.eq_false_iff.2 hbit⟩

/-- The block that the loops find is free. -/
theorem freeBlock_eq_some {q : ℕ} (h : freeBlock sb disk (q * bpb) k = some x) :
    x < sb.size ∧ sb.marked disk x = false := by
  induction k generalizing q with
  | zero => cases h
  | succ k ih =>
    rw [freeBlock] at h
    split_ifs at h with hlt
    split at h
    next y hbit =>
        cases h
        obtain ⟨hx, j, hj, rfl, hfree⟩ := freeBit_eq_some hbit
        rw [Nat.zero_add] at hj
        have hpos : 0 < bpb := by decide
        have hdiv : (q * bpb + j) / bpb = q * bpb / bpb := by
          rw [Nat.mul_comm, Nat.mul_add_div hpos, Nat.div_eq_of_lt hj,
            Nat.mul_div_cancel_left _ hpos, Nat.add_zero]
        have hmod : (q * bpb + j) % bpb = j := by
          rw [Nat.mul_add_mod_self_right, Nat.mod_eq_of_lt hj]
        refine ⟨hx, ?_⟩
        rw [Superblock.marked, hmod, Superblock.bblock, hdiv]
        exact hfree
    next hbit =>
        rw [← Nat.succ_mul] at h
        exact ih h

/-- Block `b` was marked in the free map and zeroed. -/
def State.allocate (sb : Superblock) (s : State) (b : ℕ) : State :=
  (s.tick.setBlock (sb.bblock b) ((s.disk (sb.bblock b)).setBit (b % bpb))).setBlock b .zero

/-- **`balloc`** finds a free block, marks and zeroes it, or finds none. -/
theorem balloc_ends {E : Fault → Prop} {s : State} {Q : ℕ → List Event → State → Prop}
    (hfull : Q 0 [.outOfBlocks] s.tick)
    (hfound : ∀ b < sb.size, sb.marked s.disk b = false → Q b [.alloc b] (s.allocate sb b)) :
    Ends E (balloc sb) s Q := by
  rw [balloc, ends_unlogged, Logged.balloc]
  simp only [ends_bind, ends_get, ends_modify]
  split
  next b hb =>
      rw [State.findBlock] at hb
      split_ifs at hb
      obtain ⟨hlt, hfree⟩ := freeBlock_eq_some (q := 0) (by rwa [Nat.zero_mul])
      simp only [Logged.logWrite, Logged.bzero, ends_bind, ends_modify, ends_emit, ends_pure]
      exact hfound b hlt hfree
  next =>
      simp only [ends_bind, ends_emit, ends_pure]
      exact hfull

end Alloc

/-! ### The middle of a call -/

theorem Dinode.Fits.withAddr {x : Dinode} {i v : ℕ} (h : x.Fits) (hi : i ≤ ndirect)
    (hv : v < 2 ^ 32) : (x.withAddrs (update x.addrs i v)).Fits := by
  refine ⟨h.type, h.major, h.minor, h.nlink, h.size, fun k => ?_, fun k hk => ?_⟩
  · rw [withAddrs_addrs]
    rcases eq_or_ne k i with rfl | hne
    · rwa [update_self]
    · rw [update_of_ne hne]
      exact h.addrs k
  · rw [withAddrs_addrs, update_of_ne (by omega)]
    exact h.addrs_end k hk

theorem Dinode.Fits.withSize {x : Dinode} {size : ℕ} (h : x.Fits) (hsize : size < 2 ^ 32) :
    (x.withSize size).Fits := { h with size := hsize }

namespace State

/-- The number of the inode in a table entry. -/
abbrev inum (s : State) (ip : ℕ) : ℕ := (s.itable ip).inum

/-- The inodes, where the one in table entry `ip` is as it is in the table. -/
def inodes (sb : Superblock) (s : State) (ip : ℕ) : ℕ → Dinode :=
  update (sb.inode s.disk) (s.inum ip) (s.din ip)

theorem din_setDin (s : State) (ip : ℕ) (y : Dinode) : (s.setDin ip y).din ip = y := by
  rw [din, setDin_itable, update_self, Inode.withDin_din]

theorem inum_setDin (s : State) (ip : ℕ) (y : Dinode) : (s.setDin ip y).inum ip = s.inum ip := by
  rw [inum, setDin_itable, update_self, Inode.withDin_inum]

/-- The references, where those of the inode in table entry `ip` are as they are in the table. -/
def refs (sb : Superblock) (s : State) (ip : ℕ) : BlockRef → ℕ := Fs.refs s.disk (s.inodes sb ip)

end State

/-- A call works on the inode in table entry `ip`, and every block has one owner. -/
structure Open (sb : Superblock) (s : State) (ip : ℕ) : Prop where
  inum_lt : s.inum ip < sb.ninodes
  fits : (s.din ip).Fits
  owned : Owned (s.refs sb ip) (sb.marked s.disk) sb.datastart sb.size

/-- The inode in table entry `ip` got new references, to blocks that nothing referred to.  Those
that there were are as before, and so are the blocks that the references of `P` are to. -/
structure Grown (sb : Superblock) (ip : ℕ) (P : BlockRef → Prop) (s : State) (t : List Event)
    (s' : State) : Prop where
  itable : s'.itable = update s.itable ip
    ((s.itable ip).withDin ((s.din ip).withAddrs (s'.din ip).addrs))
  inode : sb.inode s'.disk = sb.inode s.disk
  kept : ∀ r, s.refs sb ip r ≠ 0 → s'.refs sb ip r = s.refs sb ip r
  others : ∀ r, r.inum ≠ s.inum ip → s'.refs sb ip r = s.refs sb ip r
  data : ∀ r, P r → s.refs sb ip r ≠ 0 → s'.disk (s.refs sb ip r) = s.disk (s.refs sb ip r)
  fresh : ∀ b, .alloc b ∈ t → b ≠ 0 ∧ ∀ r, s.refs sb ip r ≠ b

namespace Grown

variable {sb : Superblock} {ip : ℕ} {P P' : BlockRef → Prop} {s s' s'' : State} {t t' : List Event}
  {r : BlockRef} {b : ℕ}

theorem entry (h : Grown sb ip P s t s') :
    s'.itable ip = (s.itable ip).withDin ((s.din ip).withAddrs (s'.din ip).addrs) :=
  (congrFun h.itable ip).trans (update_self ..)

theorem inum (h : Grown sb ip P s t s') : s'.inum ip = s.inum ip := by
  rw [State.inum, h.entry, Inode.withDin_inum]

theorem refl : Grown sb ip P s [] s where
  itable := (update_eq_self ip s.itable).symm
  inode := rfl
  kept := fun _ _ => rfl
  others := fun _ _ => rfl
  data := fun _ _ _ => rfl
  fresh := fun _ h => by cases h

theorem mono (h : Grown sb ip P s t s') (hP : ∀ r, P' r → P r) : Grown sb ip P' s t s' :=
  { h with data := fun r hr => h.data r (hP r hr) }

theorem trans (h : Grown sb ip P s t s') (h' : Grown sb ip P s' t' s'') :
    Grown sb ip P s (t ++ t') s'' where
  itable := by
    rw [h'.itable, State.din, h.entry, h.itable, update_idem]
    rfl
  inode := h'.inode.trans h.inode
  kept := by
    intro r hr
    rw [h'.kept r (by rwa [h.kept r hr]), h.kept r hr]
  others := by
    intro r hr
    rw [h'.others r (by rwa [h.inum]), h.others r hr]
  data := by
    intro r hP hr
    have hkept := h.kept r hr
    rw [← h.data r hP hr, ← hkept]
    exact h'.data r hP (by rwa [hkept])
  fresh := by
    intro b hb
    rcases List.mem_append.1 hb with hb | hb
    · exact h.fresh b hb
    · obtain ⟨h0, hr⟩ := h'.fresh b hb
      refine ⟨h0, fun r heq => hr r ?_⟩
      rw [h.kept r (by rwa [heq]), heq]

/-- One reference was added. -/
theorem of_update (hitable : s'.itable = update s.itable ip
      ((s.itable ip).withDin ((s.din ip).withAddrs (s'.din ip).addrs)))
    (hinode : sb.inode s'.disk = sb.inode s.disk)
    (hrefs : s'.refs sb ip = update (s.refs sb ip) r b) (hr : s.refs sb ip r = 0)
    (hinum : r.inum = s.inum ip)
    (hdata : ∀ r, P r → s.refs sb ip r ≠ 0 → s'.disk (s.refs sb ip r) = s.disk (s.refs sb ip r)) :
    Grown sb ip P s [] s' where
  itable := hitable
  inode := hinode
  kept := by
    intro r' hr'
    have hne : r' ≠ r := fun heq => hr' (by rw [heq, hr])
    rw [hrefs, update_of_ne hne]
  others := by
    intro r' hr'
    have hne : r' ≠ r := fun heq => hr' (by rw [heq, hinum])
    rw [hrefs, update_of_ne hne]
  data := hdata
  fresh := fun _ h => by cases h

end Grown

section Middle

variable {sb : Superblock} {s : State} {ip b c i j : ℕ} {d : Block} {r r' : BlockRef}

namespace Open

theorem size_pos (h : Open sb s ip) : 0 < sb.size := Nat.lt_of_lt_of_le h.owned.pos h.owned.le

theorem refs_addr : s.refs sb ip (.addr (s.inum ip) i) = (s.din ip).addrs i := by
  simp [State.refs, State.inodes]

/-- The block that holds the bytes of a file is no indirect block. -/
theorem data_ne (h : Open sb s ip) (hr : r.IsData) (h0 : s.refs sb ip r ≠ 0) (inum : ℕ) :
    s.refs sb ip r ≠ s.refs sb ip (.addr inum ndirect) := by
  intro heq
  have := h.owned.unique _ _ h0 heq
  subst this
  exact hr rfl

/-- A block of the data area changes. -/
theorem inodes_setBlock (hsb : sb.Sound) (h : Open sb s ip) (hc : sb.datastart ≤ c) :
    sb.inode (s.setBlock c d).disk = sb.inode s.disk := by
  have hlt := hsb.bmapstart_lt h.size_pos
  refine hsb.inode_congr fun x hx => ?_
  exact update_of_ne (by omega) _ _

theorem marked_setBlock (hsb : sb.Sound) (hc : sb.datastart ≤ c) (hb : b < sb.size) :
    sb.marked (s.setBlock c d).disk b = sb.marked s.disk b := by
  refine hsb.marked_congr hb fun x _ hx => ?_
  exact update_of_ne (by omega) _ _

/-! #### A block is allocated -/

theorem allocate_of_ne (hsb : sb.Sound) (hb : b < sb.size) (hc : sb.datastart ≤ c) (hne : c ≠ b) :
    (s.allocate sb b).disk c = s.disk c := by
  have hlt := hsb.bitmap b hb
  simp only [State.allocate, State.setBlock_disk, State.tick_disk]
  rw [update_of_ne hne, update_of_ne (by omega)]

theorem allocate_self : (s.allocate sb b).disk b = .zero := by
  simp [State.allocate]

theorem inode_allocate (hsb : sb.Sound) (h : Open sb s ip) (hlo : sb.datastart ≤ b) :
    sb.inode (s.allocate sb b).disk = sb.inode s.disk := by
  have hlt := hsb.bmapstart_lt h.size_pos
  have hle : sb.bmapstart ≤ sb.bblock b := Superblock.bmapstart_le_bblock
  refine hsb.inode_congr fun x hx => ?_
  simp only [State.allocate, State.setBlock_disk, State.tick_disk]
  rw [update_of_ne (by omega), update_of_ne (by omega)]

theorem marked_allocate (hsb : sb.Sound) (hlo : sb.datastart ≤ b) (hc : c < sb.size) :
    sb.marked (s.allocate sb b).disk c = (decide (c = b) || sb.marked s.disk c) := by
  have hfirst : sb.marked (s.allocate sb b).disk c = sb.marked (s.tick.setBlock (sb.bblock b)
      ((s.disk (sb.bblock b)).setBit (b % bpb))).disk c :=
    marked_setBlock hsb hlo hc
  rw [hfirst]
  exact Superblock.marked_setBit

section

variable (hsb : sb.Sound) (h : Open sb s ip) (hb : b < sb.size) (hfree : sb.marked s.disk b = false)

include hsb h hb hfree

theorem refs_allocate : (s.allocate sb b).refs sb ip = s.refs sb ip := by
  obtain ⟨hlo, hunowned⟩ := h.owned.of_free hfree
  have hinodes : (s.allocate sb b).inodes sb ip = s.inodes sb ip := by
    simp only [State.inodes, inode_allocate hsb h hlo]
    rfl
  rw [State.refs, State.refs, hinodes]
  refine refs_congr fun inum h0 => ?_
  exact allocate_of_ne hsb hb (h.owned.inside (.addr inum ndirect) h0).1
    (hunowned (.addr inum ndirect))

theorem allocate : Open sb (s.allocate sb b) ip where
  inum_lt := h.inum_lt
  fits := h.fits
  owned := by
    obtain ⟨hlo, -⟩ := h.owned.of_free hfree
    rw [refs_allocate hsb h hb hfree]
    refine h.owned.mono fun c hc hused => ?_
    rw [marked_allocate hsb hlo hc, hused, Bool.or_true]

theorem grown_allocate :
    Grown sb ip BlockRef.IsData s [.alloc b] (s.allocate sb b) where
  itable := (update_eq_self ip s.itable).symm
  inode := inode_allocate hsb h (h.owned.of_free hfree).1
  kept := fun r _ => by rw [refs_allocate hsb h hb hfree]
  others := fun r _ => by rw [refs_allocate hsb h hb hfree]
  data := fun r _ h0 =>
    allocate_of_ne hsb hb (h.owned.inside r h0).1 ((h.owned.of_free hfree).2 r)
  fresh := by
    intro c hc
    obtain rfl : c = b := by simpa using hc
    obtain ⟨hlo, hunowned⟩ := h.owned.of_free hfree
    have hpos := h.owned.pos
    exact ⟨by omega, hunowned⟩

end

/-! #### A reference is made -/

theorem inodes_self : s.inodes sb ip (s.inum ip) = s.din ip := update_self ..

theorem inodes_setDin {y : Dinode} :
    (s.setDin ip y).inodes sb ip = update (s.inodes sb ip) (s.inum ip) y := by
  simp [State.inodes, State.inum, State.din]

/-- The references after `ip->addrs[i] = b`. -/
theorem refs_setAddr (h : i = ndirect → (s.din ip).addrs ndirect = 0 ∧ s.disk b = Bytes.zero) :
    (s.setDin ip ((s.din ip).withAddrs (update (s.din ip).addrs i b))).refs sb ip =
      update (s.refs sb ip) (.addr (s.inum ip) i) b := by
  have hself : s.inodes sb ip (s.inum ip) = s.din ip := inodes_self
  rw [State.refs, inodes_setDin, State.setDin_disk, ← hself]
  exact Fs.refs_setAddr (by rwa [inodes_self])

theorem grown_setDin {P : BlockRef → Prop} {addrs : ℕ → ℕ}
    (hrefs : (s.setDin ip ((s.din ip).withAddrs addrs)).refs sb ip =
      update (s.refs sb ip) r b) (hr : s.refs sb ip r = 0) (hinum : r.inum = s.inum ip) :
    Grown sb ip P s [] (s.setDin ip ((s.din ip).withAddrs addrs)) := by
  refine Grown.of_update ?_ rfl hrefs hr hinum fun _ _ _ => rfl
  simp only [State.setDin_itable, State.din, update_self]
  rfl

/-- `ip->addrs[i] = b`, for a block that has no owner. -/
theorem setAddr (hsb : sb.Sound) (h : Open sb s ip) (hi : i ≤ ndirect)
    (hold : (s.din ip).addrs i = 0) (hb : ∀ r, s.refs sb ip r ≠ b) (hlo : sb.datastart ≤ b)
    (hhi : b < sb.size) (hused : sb.marked s.disk b = true) (hzero : s.disk b = .zero) :
    let s' := s.setDin ip ((s.din ip).withAddrs (update (s.din ip).addrs i b))
    Open sb s' ip ∧ Grown sb ip BlockRef.IsData s [] s' ∧
      s'.refs sb ip = update (s.refs sb ip) (.addr (s.inum ip) i) b := by
  intro s'
  have hrefs : s'.refs sb ip = update (s.refs sb ip) (.addr (s.inum ip) i) b :=
    refs_setAddr fun hi => ⟨by rwa [hi] at hold, hzero⟩
  refine ⟨⟨?_, ?_, ?_⟩, ?_, hrefs⟩
  · simpa [s', State.inum] using h.inum_lt
  · have hlt := hsb.size_lt
    simpa [s', State.din] using h.fits.withAddr hi (by omega : b < 2 ^ 32)
  · rw [hrefs]
    exact h.owned.attach hb hlo hhi hused
  · exact grown_setDin hrefs (refs_addr.trans hold) rfl

/-- `a[j] = b` in the indirect block, for a block that has no owner. -/
theorem setEntry (hsb : sb.Sound) (h : Open sb s ip) (hj : j < nindirect)
    (h0 : (s.din ip).addrs ndirect ≠ 0) (hold : word (s.disk ((s.din ip).addrs ndirect)) j = 0)
    (hb : ∀ r, s.refs sb ip r ≠ b) (hlo : sb.datastart ≤ b) (hhi : b < sb.size)
    (hused : sb.marked s.disk b = true) :
    let s' := s.setBlock ((s.din ip).addrs ndirect)
      (setWord (s.disk ((s.din ip).addrs ndirect)) j b)
    Open sb s' ip ∧ Grown sb ip BlockRef.IsData s [] s' ∧
      s'.refs sb ip = update (s.refs sb ip) (.entry (s.inum ip) j) b := by
  intro s'
  have hind : s.refs sb ip (.addr (s.inum ip) ndirect) = (s.din ip).addrs ndirect := refs_addr
  have hin : sb.datastart ≤ (s.din ip).addrs ndirect := by
    rw [← hind]
    exact (h.owned.inside _ (by rwa [hind])).1
  have hinode : sb.inode s'.disk = sb.inode s.disk := inodes_setBlock hsb h hin
  have hrefs : s'.refs sb ip = update (s.refs sb ip) (.entry (s.inum ip) j) b := by
    have hlt := hsb.size_lt
    have hinodes : s'.inodes sb ip = s.inodes sb ip := by
      rw [State.inodes, hinode]
      rfl
    rw [State.refs, hinodes]
    refine refs_setWord (by rw [inodes_self]) h0 (fun inum' heq => ?_) hj (by omega)
    have hsame := h.owned.unique (.addr inum' ndirect) (.addr (s.inum ip) ndirect)
      (by rwa [State.refs, Fs.refs_addr, heq]) (by rw [hind]; exact heq)
    exact (BlockRef.addr.inj hsame).1
  refine ⟨⟨h.inum_lt, h.fits, ?_⟩, ?_, hrefs⟩
  · rw [hrefs]
    refine (h.owned.attach hb hlo hhi hused).mono fun c hc hc' => ?_
    rwa [marked_setBlock hsb hin hc]
  · refine Grown.of_update (update_eq_self ip s.itable).symm hinode hrefs ?_ rfl ?_
    · rw [State.refs, refs_entry (by rwa [inodes_self]), inodes_self, hold]
    · intro r hr hne
      have hdiff := h.data_ne hr hne (s.inum ip)
      rw [hind] at hdiff
      exact update_of_ne hdiff _ _

end Open

/-- A change of the other fields of an inode changes no reference. -/
theorem Open.setDin {y : Dinode} (h : Open sb s ip) (hy : y.Fits)
    (haddrs : y.addrs = (s.din ip).addrs) :
    Open sb (s.setDin ip y) ip ∧ (s.setDin ip y).refs sb ip = s.refs sb ip := by
  have hinodes : ∀ inum, ((s.setDin ip y).inodes sb ip inum).addrs =
      (s.inodes sb ip inum).addrs := by
    intro inum
    rw [Open.inodes_setDin]
    rcases eq_or_ne inum (s.inum ip) with rfl | hne
    · rw [update_self, Open.inodes_self, haddrs]
    · rw [update_of_ne hne]
  have hrefs : (s.setDin ip y).refs sb ip = s.refs sb ip := by
    funext r
    cases r with
    | addr inum i => simp only [State.refs, Fs.refs, hinodes]
    | entry inum j => simp only [State.refs, Fs.refs, hinodes, State.setDin_disk]
  refine ⟨⟨?_, ?_, ?_⟩, hrefs⟩
  · simpa [State.inum] using h.inum_lt
  · simpa [State.din] using hy
  · rw [hrefs]
    exact h.owned

/-! ### `bmap` -/

/-- What the parts of `bmap` do, for a reference: they return the block that it is to afterwards,
and if there is none then because `balloc` found none. -/
structure Mapped (sb : Superblock) (ip : ℕ) (r : BlockRef) (s : State) (a : ℕ) (t : List Event)
    (s' : State) : Prop where
  opened : Open sb s' ip
  grown : Grown sb ip BlockRef.IsData s t s'
  block : a = s'.refs sb ip r
  full : a = 0 ↔ .outOfBlocks ∈ t

theorem Mapped.of_refs (h : Open sb s ip) (hr : s.refs sb ip r ≠ 0) :
    Mapped sb ip r s (s.refs sb ip r) [] s :=
  ⟨h, .refl, rfl, by simp [hr]⟩

/-- `balloc` found no block. -/
theorem Mapped.of_full (h : Open sb s ip) (hr : s.refs sb ip r = 0) :
    Mapped sb ip r s 0 [.outOfBlocks] s.tick where
  opened := ⟨h.inum_lt, h.fits, h.owned⟩
  grown := by
    have hrefl : Grown sb ip BlockRef.IsData s [] s := .refl
    exact { hrefl with fresh := fun b hb => by simp at hb }
  block := hr.symm
  full := by simp

section

variable (hsb : sb.Sound) (h : Open sb s ip)

include hsb h

/-- `balloc` for the place `r`, which is clear, where `put` then stores the number of the block. -/
theorem balloc_mapped {put : ℕ → State → State} (hr : s.refs sb ip r = 0)
    (hput : ∀ b < sb.size, sb.marked s.disk b = false → sb.datastart ≤ b →
      Open sb (s.allocate sb b) ip → (∀ r, (s.allocate sb b).refs sb ip r ≠ b) →
      sb.marked (s.allocate sb b).disk b = true →
      let s' := put b (s.allocate sb b)
      Open sb s' ip ∧ Grown sb ip BlockRef.IsData (s.allocate sb b) [] s' ∧
        s'.refs sb ip = update ((s.allocate sb b).refs sb ip) r b) :
    Ends (fun _ => False) (balloc sb >>= fun a => if a = 0 then pure 0 else do
      modify (put a)
      pure a) s fun a t s' =>
        Mapped sb ip r s a t s' ∧ s'.refs sb ip = update (s.refs sb ip) r a := by
  rw [ends_bind]
  refine balloc_ends ?_ fun b hb hfree => ?_
  · rw [if_pos rfl, ends_pure]
    exact ⟨Mapped.of_full h hr, (update_eq_self_iff.2 hr.symm).symm⟩
  · obtain ⟨hlo, hunowned⟩ := h.owned.of_free hfree
    have hpos := h.owned.pos
    have hrefs := Open.refs_allocate hsb h hb hfree
    have hmarked : sb.marked (s.allocate sb b).disk b = true := by
      rw [Open.marked_allocate hsb hlo hb, decide_eq_true rfl, Bool.true_or]
    obtain ⟨h', hgrown, hrefs'⟩ :=
      hput b hb hfree hlo (h.allocate hsb hb hfree) (by rwa [hrefs]) hmarked
    rw [if_neg (by omega)]
    simp only [ends_bind, ends_modify, ends_pure]
    refine ⟨⟨h', (h.grown_allocate hsb hb hfree).trans hgrown, ?_, by simp; omega⟩, ?_⟩
    · exact ((congrFun hrefs' _).trans (update_self ..)).symm
    · rw [← hrefs]
      exact hrefs'

/-- `bmapAddr` changes no reference but its own. -/
theorem bmapAddr_ends (hi : i ≤ ndirect) :
    Ends (fun _ => False) (bmapAddr sb ip i) s fun a t s' =>
      Mapped sb ip (.addr (s.inum ip) i) s a t s' ∧
        s'.refs sb ip = update (s.refs sb ip) (.addr (s.inum ip) i) a := by
  have hr : s.refs sb ip (.addr (s.inum ip) i) = (s.din ip).addrs i := Open.refs_addr
  rw [bmapAddr, Logged.bmapAddr]
  simp only [unlogged_bind, unlogged_get, unlogged_ite, unlogged_pure, unlogged_modify, ends_bind,
    ends_get, List.nil_append]
  split_ifs with hold
  · refine balloc_mapped hsb h (hr.trans hold) fun b hb _ hlo h₁ hunowned hmarked => ?_
    exact h₁.setAddr hsb hi hold hunowned hlo hb hmarked Open.allocate_self
  · rw [ends_pure, ← hr, update_eq_self]
    exact ⟨Mapped.of_refs h (by rwa [hr]), rfl⟩

/-- `bmapEntry` changes no reference but its own. -/
theorem bmapEntry_ends (hj : j < nindirect) (h0 : (s.din ip).addrs ndirect ≠ 0) :
    Ends (fun _ => False) (bmapEntry sb ((s.din ip).addrs ndirect) j) s fun a t s' =>
      Mapped sb ip (.entry (s.inum ip) j) s a t s' ∧
        s'.refs sb ip = update (s.refs sb ip) (.entry (s.inum ip) j) a := by
  have hr : s.refs sb ip (.entry (s.inum ip) j) = word (s.disk ((s.din ip).addrs ndirect)) j := by
    rw [State.refs, refs_entry (by rwa [Open.inodes_self]), Open.inodes_self]
  rw [bmapEntry, Logged.bmapEntry]
  simp only [unlogged_bind, unlogged_get, unlogged_ite, unlogged_pure, unlogged_modify,
    Logged.logWrite, unlogged_logWrite, ends_bind, ends_get, List.nil_append]
  split_ifs with hold
  · refine balloc_mapped hsb h (hr.trans hold) fun b hb hfree hlo h₁ hunowned hmarked => ?_
    -- the indirect block is in use, so that it is not the new block
    have hsame : (s.allocate sb b).disk ((s.din ip).addrs ndirect) =
        s.disk ((s.din ip).addrs ndirect) := by
      have hind : s.refs sb ip (.addr (s.inum ip) ndirect) = (s.din ip).addrs ndirect :=
        Open.refs_addr
      rw [← hind] at h0 ⊢
      exact Open.allocate_of_ne hsb hb (h.owned.inside _ h0).1 ((h.owned.of_free hfree).2 _)
    exact h₁.setEntry hsb hj h0 (by rw [← hold, ← hsame]; rfl) hunowned hlo hb hmarked
  · rw [ends_pure, ← hr, update_eq_self]
    exact ⟨Mapped.of_refs h (by rwa [hr]), rfl⟩

/-- `bmap` makes no block of the file but the one with the given number. -/
theorem bmap_mapped {bn : ℕ} (hbn : bn < maxfile) :
    Ends (fun _ => False) (bmap sb ip bn) s fun a t s' =>
      Mapped sb ip (blockRef (s.inum ip) bn) s a t s' ∧
      ∀ r, r.IsData → r ≠ blockRef (s.inum ip) bn → s'.refs sb ip r = s.refs sb ip r := by
  rw [bmap, Logged.bmap, blockRef]
  split_ifs with hdirect hindirect
  · refine (bmapAddr_ends hsb h (Nat.le_of_lt hdirect)).post ?_
    rintro a t s' ⟨h₁, hrefs⟩
    refine ⟨h₁, fun r _ hne => ?_⟩
    rw [hrefs, update_of_ne hne]
  · simp only [unlogged_bind, unlogged_ite, unlogged_pure, ends_bind]
    refine (bmapAddr_ends hsb h (Nat.le_refl _)).post ?_
    rintro ind t₁ s₁ ⟨h₁, hrefs₁⟩
    have hind : ind = (s₁.din ip).addrs ndirect := by
      rw [h₁.block, ← h₁.grown.inum, Open.refs_addr]
    -- the indirect block holds addresses, so that it is none of the blocks of the file
    have hdata₁ : ∀ r, r.IsData → s₁.refs sb ip r = s.refs sb ip r := by
      intro r hr
      rw [hrefs₁, update_of_ne]
      rintro rfl
      exact hr rfl
    split_ifs with h0
    · rw [ends_pure]
      refine ⟨⟨h₁.opened, by simpa using h₁.grown, ?_, by simpa [h0] using h₁.full⟩,
        fun r hr _ => hdata₁ r hr⟩
      rw [State.refs, refs_entry_of_zero]
      rw [← h₁.grown.inum, Open.inodes_self, ← hind, h0]
    · subst hind
      refine (bmapEntry_ends hsb h₁.opened hindirect h0).post ?_
      rintro a t₂ s₂ ⟨h₂, hrefs₂⟩
      rw [h₁.grown.inum] at h₂ hrefs₂
      refine ⟨⟨h₂.opened, h₁.grown.trans h₂.grown, h₂.block, ?_⟩, fun r hr hne => ?_⟩
      · rw [h₂.full, List.mem_append, ← h₁.full]
        exact ⟨.inr, fun h => h.resolve_left h0⟩
      · rw [hrefs₂, update_of_ne hne, hdata₁ r hr]
  · simp only [maxfile] at hbn
    omega

/-- **`bmap` returns the block with the given number.** -/
theorem bmap_ends {bn : ℕ} (hbn : bn < maxfile) :
    Ends (fun _ => False) (bmap sb ip bn) s (Mapped sb ip (blockRef (s.inum ip) bn) s) :=
  (bmap_mapped hsb h hbn).post fun _ _ _ h => h.1

end

/-- A block that there is already, which `bmap` does not record. -/
theorem bmap_of_refs_logged {bn : ℕ} (h : s.refs sb ip (blockRef (s.inum ip) bn) ≠ 0) :
    Runs (Logged.bmap sb ip bn) s (s.refs sb ip (blockRef (s.inum ip) bn)) [] s := by
  have hlt := lt_maxfile_of_refs h
  unfold Logged.bmap
  unfold blockRef at h ⊢
  split_ifs at h ⊢ with hdirect hindirect
  · rw [Open.refs_addr] at h ⊢
    rw [Logged.bmapAddr, (get_runs s).silent_iff, if_neg h]
    exact runs_pure.2 ⟨rfl, rfl, rfl⟩
  · have h0 : (s.din ip).addrs ndirect ≠ 0 := by
      intro h0
      refine h ?_
      rw [State.refs, refs_entry_of_zero (by rw [Open.inodes_self, h0])]
    have hr : s.refs sb ip (.entry (s.inum ip) (bn - ndirect)) =
        word (s.disk ((s.din ip).addrs ndirect)) (bn - ndirect) := by
      rw [State.refs, refs_entry (by rwa [Open.inodes_self]), Open.inodes_self]
    have hind : Runs (Logged.bmapAddr sb ip ndirect) s ((s.din ip).addrs ndirect) [] s := by
      rw [Logged.bmapAddr, (get_runs s).silent_iff, if_neg h0]
      exact runs_pure.2 ⟨rfl, rfl, rfl⟩
    rw [hr] at h ⊢
    rw [hind.silent_iff, if_neg h0, Logged.bmapEntry, (get_runs s).silent_iff, if_neg h]
    exact runs_pure.2 ⟨rfl, rfl, rfl⟩
  · simp only [maxfile] at hlt
    omega

theorem bmap_of_refs {bn : ℕ} (h : s.refs sb ip (blockRef (s.inum ip) bn) ≠ 0) :
    Runs (bmap sb ip bn) s (s.refs sb ip (blockRef (s.inum ip) bn)) [] s := 
  runs_unlogged (bmap_of_refs_logged h)

/-- A block that holds bytes of the file changes. -/
theorem Open.setData (hsb : sb.Sound) (h : Open sb s ip) (hr : r.IsData)
    (hinum : r.inum = s.inum ip) (h0 : s.refs sb ip r ≠ 0) :
    let s' := s.setBlock (s.refs sb ip r) d
    Open sb s' ip ∧ Grown sb ip (fun r => r.IsData ∧ r.inum ≠ s.inum ip) s [] s' ∧
      s'.refs sb ip = s.refs sb ip := by
  intro s'
  have hin := (h.owned.inside r h0).1
  have hinode : sb.inode s'.disk = sb.inode s.disk := inodes_setBlock hsb h hin
  have hrefs : s'.refs sb ip = s.refs sb ip := by
    have hinodes : s'.inodes sb ip = s.inodes sb ip := by
      rw [State.inodes, hinode]
      rfl
    rw [State.refs, hinodes]
    refine refs_congr fun inum _ => ?_
    exact update_of_ne (h.data_ne hr h0 inum).symm _ _
  refine ⟨⟨h.inum_lt, h.fits, ?_⟩, ?_, hrefs⟩
  · rw [hrefs]
    refine h.owned.mono fun c hc hc' => ?_
    rwa [marked_setBlock hsb hin hc]
  · refine ⟨(update_eq_self ip s.itable).symm, hinode, fun r' _ => by rw [hrefs],
      fun r' _ => by rw [hrefs], fun r' hr' h0' => ?_, fun _ hb => by cases hb⟩
    refine update_of_ne (fun heq => hr'.2 ?_) _ _
    rw [h.owned.unique r' r h0' heq, hinum]

end Middle

/-! ### Between two calls -/

/-- **The file system is in order**: every block has one owner; there is a block for every byte of a
file; the inodes in the table that were read from the disk are as they are there; and no inode is in
the table twice. -/
structure Consistent (sb : Superblock) (s : State) : Prop where
  owned : Owned (refs s.disk (sb.inode s.disk)) (sb.marked s.disk) sb.datastart sb.size
  covered : ∀ inum bn, bn * bsize < (sb.inode s.disk inum).size →
    refs s.disk (sb.inode s.disk) (blockRef inum bn) ≠ 0
  valid : ∀ ip, 0 < (s.itable ip).ref → (s.itable ip).valid = true →
    s.inum ip < sb.ninodes ∧ s.din ip = sb.inode s.disk (s.inum ip) ∧ (s.din ip).type ≠ 0
  distinct : ∀ ip ip', 0 < (s.itable ip).ref → 0 < (s.itable ip').ref → s.inum ip = s.inum ip' →
    ip = ip'
  beyond : ∀ ip, ninode ≤ ip → (s.itable ip).ref = 0

/-- The caller has a reference to the inode, and has locked it. -/
structure Locked (s : State) (ip : ℕ) : Prop where
  ref : 0 < (s.itable ip).ref
  valid : (s.itable ip).valid = true

namespace Consistent

variable {sb : Superblock} {s s₁ s' : State} {ip : ℕ}

section

variable (h : Consistent sb s) (hl : Locked s ip)

include h hl

theorem inodes_eq : s.inodes sb ip = sb.inode s.disk := by
  rw [State.inodes, (h.valid ip hl.ref hl.valid).2.1, update_eq_self]

theorem refs_eq :
    s.refs sb ip = refs s.disk (sb.inode s.disk) := by rw [State.refs, h.inodes_eq hl]

/-- A call begins. -/
theorem opened : Open sb s ip where
  inum_lt := (h.valid ip hl.ref hl.valid).1
  fits := by
    rw [(h.valid ip hl.ref hl.valid).2.1]
    exact Superblock.inode_fits ..
  owned := by
    rw [h.refs_eq hl]
    exact h.owned

theorem covered_opened {bn : ℕ} (hbn : bn * bsize < (s.din ip).size) :
    s.refs sb ip (blockRef (s.inum ip) bn) ≠ 0 := by
  rw [(h.valid ip hl.ref hl.valid).2.1] at hbn
  rw [h.refs_eq hl]
  exact h.covered _ _ hbn

end

end Consistent

section Update

variable {sb : Superblock} {s s₁ s' : State} {ip : ℕ}

/-- An inode is stored before the free map. -/
theorem setDinode_of_le (hsb : sb.Sound) {inum c : ℕ} {y : Dinode} (hinum : inum < sb.ninodes)
    (hc : sb.bmapstart ≤ c) : (s.setDinode sb inum y).disk c = s.disk c := by
  have hlt := hsb.inodes _ hinum
  exact update_of_ne (by omega) _ _

theorem Open.setDinode_of_le (hsb : sb.Sound) (h : Open sb s ip) {c : ℕ} {y : Dinode}
    (hc : sb.bmapstart ≤ c) : (s.setDinode sb (s.inum ip) y).disk c = s.disk c :=
  Fs.setDinode_of_le hsb h.inum_lt hc

/-- After `iupdate` the inodes on the disk are those that the call has worked with. -/
theorem Open.inode_iupdate (h : Open sb s ip) :
    sb.inode (s.setDinode sb (s.inum ip) (s.din ip)).disk = s.inodes sb ip :=
  Superblock.inode_setDinode h.inum_lt h.fits

theorem Open.refs_iupdate (hsb : sb.Sound) (h : Open sb s ip) :
    refs (s.setDinode sb (s.inum ip) (s.din ip)).disk (s.inodes sb ip) = s.refs sb ip := by
  have hlt := hsb.bmapstart_lt h.size_pos
  refine refs_congr fun inum h0 => ?_
  have hin : sb.datastart ≤ (s.inodes sb ip inum).addrs ndirect :=
    (h.owned.inside (.addr inum ndirect) h0).1
  exact h.setDinode_of_le hsb (by omega)

theorem Open.owned_iupdate (hsb : sb.Sound) (h : Open sb s ip) :
    Owned (s.refs sb ip) (sb.marked (s.setDinode sb (s.inum ip) (s.din ip)).disk) sb.datastart
      sb.size := by
  refine h.owned.mono fun c hc hc' => ?_
  rwa [hsb.marked_congr hc fun x hx _ => h.setDinode_of_le hsb hx]

/-- **A call ends.**  It has worked on the inode in table entry `ip` in `s₁`, has left the other
inodes alone, and has stored the inode. -/
theorem Consistent.closed (hsb : sb.Sound) (h : Consistent sb s) (hl : Locked s ip)
    (h₁ : Open sb s₁ ip) (hinum : s₁.inum ip = s.inum ip)
    (hinode : sb.inode s₁.disk = sb.inode s.disk)
    (hothers : ∀ r, r.inum ≠ s.inum ip → s₁.refs sb ip r = s.refs sb ip r)
    (hcovered : ∀ bn, bn * bsize < (s₁.din ip).size → s₁.refs sb ip (blockRef (s.inum ip) bn) ≠ 0)
    (hdisk : s'.disk = (s₁.setDinode sb (s₁.inum ip) (s₁.din ip)).disk)
    (hitable : ∀ ip' ≠ ip, s'.itable ip' = s.itable ip') (hinum' : s'.inum ip = s.inum ip)
    (hvalid : 0 < (s'.itable ip).ref → (s'.itable ip).valid = true →
      s'.din ip = s₁.din ip ∧ (s₁.din ip).type ≠ 0) : Consistent sb s' := by
  have hinodes : sb.inode s'.disk = s₁.inodes sb ip := by
    rw [hdisk]
    exact h₁.inode_iupdate
  have hrefs : refs s'.disk (sb.inode s'.disk) = s₁.refs sb ip := by
    rw [hinodes, hdisk]
    exact h₁.refs_iupdate hsb
  have hself : sb.inode s'.disk (s.inum ip) = s₁.din ip := by
    rw [hinodes, ← hinum, Open.inodes_self]
  have hother : ∀ inum ≠ s.inum ip, sb.inode s'.disk inum = sb.inode s.disk inum := by
    intro inum hne
    rw [hinodes, State.inodes, hinum, update_of_ne hne, hinode]
  -- an entry that was in use holds another inode
  have hne : ∀ ip' ≠ ip, 0 < (s'.itable ip').ref → s'.inum ip' ≠ s.inum ip := by
    intro ip' hip' href heq
    rw [State.inum, hitable ip' hip'] at heq
    rw [hitable ip' hip'] at href
    exact hip' (h.distinct ip' ip href hl.ref heq)
  refine ⟨?_, ?_, ?_, ?_, ?_⟩
  · rw [hrefs, hdisk]
    exact h₁.owned_iupdate hsb
  · intro inum bn hbn
    rw [hrefs]
    rcases eq_or_ne inum (s.inum ip) with rfl | hinum₁
    · rw [hself] at hbn
      exact hcovered bn hbn
    · rw [hother inum hinum₁] at hbn
      rw [hothers _ (by rwa [blockRef_inum]), h.refs_eq hl]
      exact h.covered inum bn hbn
  · intro ip' href hval
    rcases eq_or_ne ip' ip with rfl | hip'
    · obtain ⟨hdin, htype⟩ := hvalid href hval
      rw [hinum', hdin, hself]
      exact ⟨hinum ▸ h₁.inum_lt, rfl, htype⟩
    · have hnum := hne ip' hip' href
      rw [State.inum, hitable ip' hip'] at hnum
      rw [hitable ip' hip'] at href hval
      rw [State.inum, State.din, hitable ip' hip', hother _ hnum]
      exact h.valid ip' href hval
  · intro ip₁ ip₂ href₁ href₂ heq
    rcases eq_or_ne ip₁ ip with rfl | h₁'
    · rcases eq_or_ne ip₂ ip₁ with rfl | h₂'
      · rfl
      · exact absurd (heq.symm.trans hinum') (hne ip₂ h₂' href₂)
    · rcases eq_or_ne ip₂ ip with rfl | h₂'
      · exact absurd (heq.trans hinum') (hne ip₁ h₁' href₁)
      · rw [State.inum, State.inum, hitable ip₁ h₁', hitable ip₂ h₂'] at heq
        rw [hitable ip₁ h₁'] at href₁
        rw [hitable ip₂ h₂'] at href₂
        exact h.distinct ip₁ ip₂ href₁ href₂ heq
  · intro ip' hip'
    have hip : ip < ninode := by
      by_contra hge
      have := h.beyond ip (by omega)
      have := hl.ref
      omega
    rw [hitable ip' (by omega)]
    exact h.beyond ip' hip'

end Update

end RaidSystem.Fs
