/-
**Whether the advertised blocks exist.**

`init_raid` computes the number of blocks of the array in units of `BLOCKSIZE = 512` bytes, while
the driver moves `BSIZE = 1024` bytes for each block number; and for `RAID4` and `RAID5` it counts
the parity disk as well.  So `read_raid` and `write_raid` accept block numbers for which they ask
the driver for a block beyond the end of a disk.

All transfers of one access have the same block number, the one that `readPlace` gives
(`traces_readRaid_block`, `traces_writeRaid_block`).  Hence the logical block `b` exists exactly if
that block does.

Main definitions:

* `columns` — the number of logical blocks that share a physical block number;
* `BlockExists` — after `init_raid`, whatever happens, accesses to a logical block stay on the
  disks.

Main results:

* `blockExists_iff` — **the advertised blocks that exist**;
* `advertised_block_missing` — an advertised block that does not.
-/

import RaidSystem.Accesses
import RaidSystem.MetadataSteps

set_option autoImplicit false

namespace RaidSystem

open Prog

variable {cfg : Config} {t : RaidType} {s s' : Machine} {m m' : Raid} {b k : ℕ} {buf : Block}

/-! ### Definitions -/

/-- The number of logical blocks that share a physical block number. -/
def columns (t : RaidType) (n : ℕ) : ℕ :=
  match t with
  | .RAID0 => n
  | .RAID1 | .RAID0_1 => n / 2
  | .RAID4 | .RAID5 => n - 1
  | .other _ => 0

/-- A transfer is of block `k`. -/
def Access.AtBlock (k : ℕ) : Access → Prop
  | .read _ blockno => blockno = k
  | .write _ blockno => blockno = k
  | _ => True

/-- A transfer is of a block other than the metadata block, and stays on the disk. -/
def Access.OnDisk (cfg : Config) : Access → Prop
  | .read _ blockno => 1 ≤ blockno ∧ cfg.OnDisk blockno
  | .write _ blockno => 1 ≤ blockno ∧ cfg.OnDisk blockno
  | _ => True

def Call.isInit : Call → Bool
  | .initRaid _ => true
  | _ => false

/-- In every state after `init_raid` for type `t`, the transfers of an access to block `x` stay on
the disks. -/
def BlockExists (cfg : Config) (t : RaidType) (x : ℤ) : Prop :=
  ∀ s₀ r s₁ h s data, Returns (exec cfg (.initRaid t.code)) s₀ r s₁ →
    Reach (exec cfg) (fun _ _ c => c.isInit = false) s₁ h s →
    Traces (Access.OnDisk cfg) (exec cfg (.readRaid x data)) s ∧
      Traces (Access.OnDisk cfg) (exec cfg (.writeRaid x data)) s

/-- The metadata are of an array of type `t`, or of none. -/
def OfType (cfg : Config) (t : RaidType) (m : Raid) : Prop :=
  m.raidInitialized = true → m.type = t ∧ m.numOfDisks = numOfDisksOf t cfg.disks

/-! ### The block number of an access -/

theorem Supports.ne_other {n : ℕ} (ht : Supports t n) : ∀ v, t ≠ .other v := by
  rintro v rfl
  exact ht

theorem Supports.pos {n : ℕ} (ht : Supports t n) : 1 ≤ n := by
  cases t with
  | RAID0 => exact ht
  | other v => exact ht.elim
  | _ => exact Nat.le_of_succ_le ht

theorem Supports.columns_pos {n : ℕ} (ht : Supports t n) : 0 < columns t n := by
  cases t with
  | RAID0 => exact ht
  | RAID1 => exact Nat.div_pos ht (by decide)
  | RAID0_1 => exact Nat.div_pos ht (by decide)
  | RAID4 => exact Nat.sub_pos_of_lt ht
  | RAID5 => exact Nat.sub_pos_of_lt ht
  | other v => exact ht.elim

theorem readPlace_snd {n : ℕ} (ht : Supports t n) (b : ℕ) :
    (readPlace t n b).2 = b / columns t n + 1 := by
  cases t with
  | other v => exact ht.elim
  | _ => rfl

section Block

variable (hm : s.raidMetadata = some m)

include hm

theorem traces_readMirror_block (i : ℕ) : Traces (Access.AtBlock k) (readMirror cfg i k buf) s :=
  traces_readMirror hm (returns_dataDisks.2 ⟨rfl, m, hm, rfl⟩)
    (returns_copyDisks.2 ⟨rfl, m, hm, rfl⟩) trivial trivial trivial (fun _ => rfl)
    (fun _ => trivial) fun _ _ => rfl

theorem traces_writeMirror_block (i : ℕ) : Traces (Access.AtBlock k) (writeMirror cfg i k buf) s :=
  traces_writeMirror hm (returns_dataDisks.2 ⟨rfl, m, hm, rfl⟩)
    (returns_copyDisks.2 ⟨rfl, m, hm, rfl⟩) trivial trivial trivial (fun _ => rfl) trivial
    fun _ => rfl

theorem traces_cache_block (q : ℤ) : Traces (Access.AtBlock k) (cache cfg k q) s :=
  traces_cache hm (fun _ _ _ => ⟨trivial, rfl⟩) trivial rfl

theorem traces_readStripe_block (d : ℕ) (q : ℤ) :
    Traces (Access.AtBlock k) (readStripe cfg d k q buf) s :=
  traces_readStripe hm trivial fun _ => traces_cache_block hm q

theorem traces_writeStripe_block (d : ℕ) (q : ℤ) :
    Traces (Access.AtBlock k) (writeStripe cfg d k q buf) s :=
  traces_writeStripe hm (fun _ => ⟨trivial, rfl⟩) (fun _ => ⟨traces_cache_block hm q, trivial, rfl⟩)
    trivial rfl

variable (ht : ∀ v, t ≠ .other v) (hn : m.numOfDisks = numOfDisksOf t cfg.disks)

include ht hn

theorem traces_accessFunction_block {f : Bodies}
    (hzero : Traces (Access.AtBlock (b / m.numOfDisks + 1)) (f.zero b buf) s)
    (hmirror : ∀ i k, Traces (Access.AtBlock k) (f.mirror i k buf) s)
    (hstripe : ∀ d k q, Traces (Access.AtBlock k) (f.stripe d k q buf) s) :
    Traces (Access.AtBlock (readPlace t cfg.disks b).2) (accessFunction f t b buf) s := by
  cases t with
  | RAID0 =>
    rw [readPlace, ← hn]
    exact hzero
  | RAID1 =>
    rw [readPlace, ← hn]
    exact traces_divided hm trivial (hmirror _ _)
  | RAID0_1 =>
    rw [readPlace, ← hn]
    exact traces_divided hm trivial (hmirror _ _)
  | RAID4 =>
    rw [readPlace, ← hn]
    exact traces_refusing hm (traces_divisor_bind trivial (hstripe _ _ _))
  | RAID5 =>
    rw [readPlace, ← hn]
    exact traces_refusing hm
      (traces_divisor_bind trivial (traces_divisor_bind trivial (hstripe _ _ _)))
  | other v => exact absurd rfl (ht v)

theorem traces_readFunction_block :
    Traces (Access.AtBlock (readPlace t cfg.disks b).2) (readFunction cfg t b buf) s := by
  rw [readFunction_eq]
  exact traces_accessFunction_block hm ht hn (traces_readRaid0 hm trivial trivial rfl)
    (fun i _ => traces_readMirror_block hm i) fun d _ q => traces_readStripe_block hm d q

theorem traces_writeFunction_block :
    Traces (Access.AtBlock (readPlace t cfg.disks b).2) (writeFunction cfg t b buf) s := by
  rw [writeFunction_eq]
  exact traces_accessFunction_block hm ht hn (traces_writeRaid0 hm trivial trivial rfl)
    (fun i _ => traces_writeMirror_block hm i) fun d _ q => traces_writeStripe_block hm d q

end Block

section

variable (ht : ∀ v, t ≠ .other v) (hI : AllMeta cfg (OfType cfg t) s) (x : ℤ) (data : Option Block)

include ht hI x data

/-- **The transfers of a read all have the block number of the logical block.** -/
theorem traces_readRaid_block :
    Traces (Access.AtBlock (readPlace t cfg.disks x.toNat).2) (exec cfg (.readRaid x data)) s := by
  rcases accepted_or_rejected s x data with ⟨m, buf, b, hm, rfl, rfl, hb⟩ | hrej
  · obtain ⟨hmt, hn⟩ := hI.memory m hm hb.1
    exact traces_exec_readRaid
      (traces_readRaid hm hb hmt ht trivial (traces_readFunction_block hm ht hn))
  · exact traces_exec_readRaid (traces_accessRaid_rejected hrej)

/-- **The transfers of a write all have the block number of the logical block.** -/
theorem traces_writeRaid_block :
    Traces (Access.AtBlock (readPlace t cfg.disks x.toNat).2) (exec cfg (.writeRaid x data)) s := by
  rcases accepted_or_rejected s x data with ⟨m, buf, b, hm, rfl, rfl, hb⟩ | hrej
  · obtain ⟨hmt, hn⟩ := hI.memory m hm hb.1
    exact traces_exec_writeRaid
      (traces_writeRaid hm hb hmt ht trivial (traces_writeFunction_block hm ht hn))
  · exact traces_exec_writeRaid (traces_accessRaid_rejected hrej)

end

/-! ### The type along a run -/

theorem OfType.of_shape (h : m'.shape = m.shape) (hm : OfType cfg t m) : OfType cfg t m' := by
  obtain ⟨hinit, hrest⟩ := Prod.mk.inj h
  obtain ⟨htype, hrest⟩ := Prod.mk.inj hrest
  obtain ⟨hnum, -⟩ := Prod.mk.inj hrest
  rw [OfType, hinit, htype, hnum]
  exact hm

theorem OfType.of_core (h : m.core = m'.core) (hm : OfType cfg t m) : OfType cfg t m' := by
  have hinit : m.core.raidInitialized = m'.core.raidInitialized := by rw [h]
  have htype : m.core.type = m'.core.type := by rw [h]
  have hnum : m.core.numOfDisks = m'.core.numOfDisks := by rw [h]
  rw [OfType] at hm ⊢
  rwa [show m'.raidInitialized = m.raidInitialized from hinit.symm,
    show m'.type = m.type from htype.symm, show m'.numOfDisks = m.numOfDisks from hnum.symm]

theorem allMeta_ofType_step {c : Call} {r : Reply} (hn : 1 ≤ cfg.disks)
    (hI : AllMeta cfg (OfType cfg t) s) (hc : c.isInit = false) (h : Returns (exec cfg c) s r s') :
    AllMeta cfg (OfType cfg t) s' := by
  have hstep := metaStep_of_returns hn h
  refine hI.step hn hstep nofun (fun m hm => hm) ?_ ?_ ?_ ?_
  · intro haccess m' hm'
    obtain ⟨m, hm, hmm'⟩ := exists_of_core hm' (core_of_access haccess h).2
    exact (hI.memory m hm).of_core hmm'
  · rintro x m rfl - hm
    cases hc
  · intro x m d s₁ m' _ _ _ hm hroles hm'
    exact OfType.of_shape (m := markDead m d)
      (shape_of_roles roleFrame_shape.failRoles hroles hm') hm
  · intro x m d s₁ m' _ _ _ hm hroles hm'
    exact OfType.of_shape (m := markRepaired m d)
      (shape_of_roles roleFrame_shape.repairRoles hroles hm') hm

/-- Until the next `init_raid` the array keeps its type. -/
theorem allMeta_ofType (ht : Supports t cfg.disks) {s₀ s₁ : Machine} {r : Reply} {h : List Call}
    (hinit : Returns (exec cfg (.initRaid t.code)) s₀ r s₁)
    (hr : Reach (exec cfg) (fun _ _ c => c.isInit = false) s₁ h s) :
    AllMeta cfg (OfType cfg t) s := by
  have hfresh : ∀ m, OfType cfg t (initMeta cfg t m) := fun m _ =>
    ⟨initMeta_type cfg t m, initMeta_numOfDisks cfg t m⟩
  obtain ⟨m, -, hsaved⟩ := exec_initRaid_cases ht.pos hinit
  rw [ofInt_code ht.ne_other] at hsaved
  refine hr.inv (fun _ s => AllMeta cfg (OfType cfg t) s) ⟨?_, ?_⟩ ?_
  · intro m₁ hm₁
    rw [← Option.mem_unique hsaved.raidMetadata hm₁]
    exact hfresh m
  · intro e h₁ h₂
    rw [hsaved.super_live e h₁ h₂ trivial]
    exact hfresh m
  · intro h s c r s' hI hc hret
    exact allMeta_ofType_step ht.pos hI hc hret

/-! ### An access that does transfer -/

section Transfer

variable {P : Access → Prop}

theorem of_traces_readBlock {d : ℤ} (h : Traces P (readBlock cfg d k) s) : P (.read d k) :=
  traces_emit.1 (traces_bind.1 h).1

/-- Loading a stripe begins with disk `1`. -/
theorem of_traces_cache {q : ℤ} (hm : s.raidMetadata = some m) (hpos : 1 ≤ m.numOfDisks)
    (hn : 1 ≤ cfg.disks) (hd : ¬ m.Dead 1) (h : Traces P (cache cfg k q) s) : P (.read 1 k) := by
  rw [cache, (setMetadata_returns hm).traces_bind_iff, (metadata_returns rfl).traces_bind_iff] at h
  have hround := (traces_bind.1 h.2.2).1.forRange_first hpos
  have hread := (traces_ifFalse.1 hround).2 _
    (LiveDisk.dead_returns (m := { m with stripe := k }) ⟨le_rfl, hn, hd⟩ rfl)
  exact of_traces_readBlock (traces_bind.1 hread).1

/-- A read that misses the cache loads the stripe. -/
theorem of_traces_readStripe {q : ℤ} {d : ℕ} (hm : s.raidMetadata = some m) (hmiss : m.stripe ≠ k)
    (h : Traces P (readStripe cfg d k q buf) s) :
    Traces P (cache cfg k q) s := by
  rw [readStripe, (metadata_returns hm).traces_bind_iff, if_neg hmiss] at h
  exact (traces_bind.1 h.2).1

theorem of_traces_divisor {α : Type} {n : ℕ} {body : Kernel α} (hn : n ≠ 0)
    (h : Traces P (do divisor n; body) s) : Traces P body s :=
  ((divisor_returns hn).traces_bind_iff.1 h).2

/-- The head of an access function that divides by the number of disks. -/
theorem of_traces_divided {α : Type} {body : Raid → Kernel α} (hm : s.raidMetadata = some m)
    (hpos : m.numOfDisks ≠ 0) (h : Traces P (do let m ← metadata; divisor m.numOfDisks; body m) s) :
    Traces P (body m) s := by
  rw [(metadata_returns hm).traces_bind_iff] at h
  exact of_traces_divisor hpos h.2

theorem of_traces_refusing {body : Raid → Kernel (ℤ × Block)} (hm : s.raidMetadata = some m)
    (hfew : ¬ m.maxDeadDisks ≤ m.numDeadDisks)
    (h : Traces P (do
      let m ← metadata
      if m.maxDeadDisks ≤ m.numDeadDisks then pure (-1, buf) else body m) s) :
    Traces P (body m) s := by
  rw [(metadata_returns hm).traces_bind_iff, if_neg hfew] at h
  exact h.2

/-- A read of a column whose primary is alive goes to the primary. -/
theorem of_traces_readMirror {i d : ℕ} (hm : s.raidMetadata = some m)
    (hdata : Returns (dataDisks cfg i) s d s) (hd : LiveDisk cfg m d)
    (h : Traces P (readMirror cfg i k buf) s) : P (.read d k) := by
  rw [readMirror, hdata.traces_bind_iff,
    (returns_copyDisks.2 ⟨rfl, m, hm, rfl⟩).traces_bind_iff,
    (hd.dead_returns hm).traces_bind_iff] at h
  exact of_traces_readBlock (traces_bind.1 h.2.2.2).1

section Fresh

variable (hs : Initialised cfg t s)

include hs

/-- The primary of column `i` of a fresh mirrored array is disk `i + 1`. -/
theorem fresh_dataDisks_returns {i : ℕ} (ht : t = .RAID1 ∨ t = .RAID0_1) (hi : i < cfg.disks / 2) :
    Returns (dataDisks cfg i) s (i + 1 : ℕ) s := by
  have hentry : (freshMeta cfg t).dataDisks i = (i + 1 : ℕ) := by
    rcases ht with rfl | rfl
    · exact if_pos hi
    · exact if_pos hi
  rw [← hentry]
  exact dataDisks_returns hs.raidMetadata hi

/-- On a fresh array a read transfers the block it is about. -/
theorem of_traces_readFunction (ht : Supports t cfg.disks)
    (h : Traces P (readFunction cfg t b buf) s) :
    ∃ d, P (.read d (readPlace t cfg.disks b).2) := by
  have hm := hs.raidMetadata
  have hlive := not_dead_freshMeta cfg t
  have hmiss : ∀ k : ℕ, (-1 : ℤ) ≠ k := fun k => by omega
  have hn := ht.pos
  cases t with
  | RAID0 =>
    have hlt : b % cfg.disks < cfg.disks := Nat.mod_lt b hn
    have hbody := of_traces_divided hm (Nat.one_le_iff_ne_zero.1 hn) h
    have hone : LiveDisk cfg (freshMeta cfg .RAID0) (b % cfg.disks + 1) :=
      ⟨Nat.le_add_left 1 _, hlt, hlive _⟩
    have hread := ((hone.dead_returns hm).traces_bind_iff.1 hbody).2
    exact ⟨_, of_traces_readBlock (traces_bind.1 hread).1⟩
  | RAID1 =>
    have hlt : b % (cfg.disks / 2) < cfg.disks / 2 := Nat.mod_lt b ht.columns_pos
    exact ⟨_, of_traces_readMirror hm (fresh_dataDisks_returns hs (.inl rfl) hlt)
      ⟨Nat.le_add_left 1 _, by omega, hlive _⟩ (of_traces_divided hm ht.columns_pos.ne' h)⟩
  | RAID0_1 =>
    have hlt : b % (cfg.disks / 2) < cfg.disks / 2 := Nat.mod_lt b ht.columns_pos
    exact ⟨_, of_traces_readMirror hm (fresh_dataDisks_returns hs (.inr rfl) hlt)
      ⟨Nat.le_add_left 1 _, by omega, hlive _⟩ (of_traces_divided hm ht.columns_pos.ne' h)⟩
  | RAID4 =>
    have hbody := of_traces_refusing hm (by decide : ¬ 2 ≤ 0) h
    have hload := of_traces_readStripe hm (hmiss _) (of_traces_divisor ht.columns_pos.ne' hbody)
    exact ⟨1, of_traces_cache hm ht.columns_pos ht.pos (hlive 1) hload⟩
  | RAID5 =>
    have hbody := of_traces_divisor ht.columns_pos.ne'
      (of_traces_refusing hm (by decide : ¬ 2 ≤ 0) h)
    have hload := of_traces_readStripe hm (hmiss _)
      (of_traces_divisor (by omega : cfg.disks ≠ 0) hbody)
    exact ⟨1, of_traces_cache hm ht.pos ht.pos (hlive 1) hload⟩
  | other v => exact ht.elim

theorem of_traces_readRaid (ht : Supports t cfg.disks) (hb : (freshMeta cfg t).Accepts b)
    (h : Traces P (exec cfg (.readRaid b (some buf))) s) :
    Traces P (readFunction cfg t b buf) s := by
  have haccess := (get_returns.traces_bind_iff.1 (traces_bind.1 h).1).2
  simp only [hs.raidMetadata, hb, if_true, Int.toNat_natCast] at haccess
  have hcall := (traces_bind.1 haccess).1
  rw [freshMeta_type, raidRw_read ht.ne_other,
    ((returns_emit (u := ())).2 rfl).traces_bind_iff] at hcall
  exact hcall.2

end Fresh

end Transfer

/-! ### The advertised blocks -/

/-- The physical block of a logical block is on the disk exactly if the logical block is one of
those that the disks have room for. -/
theorem onDisk_readPlace_iff (ht : Supports t cfg.disks) (b : ℕ) :
    cfg.OnDisk (readPlace t cfg.disks b).2 ↔
      b < columns t cfg.disks * (cfg.diskSize / bsize - 1) := by
  rw [readPlace_snd ht, Config.OnDisk, ← Nat.le_div_iff_mul_le (by decide), Nat.mul_comm,
    ← Nat.div_lt_iff_lt_mul ht.columns_pos]
  generalize b / columns t cfg.disks = q
  omega

/-- **The advertised blocks that exist**: an access to an advertised block stays on the disks
exactly if the block number is below the number of columns times the number of `BSIZE` blocks of a
disk, the metadata block not counted. -/
theorem blockExists_iff (ht : Supports t cfg.disks) {x : ℤ} (hx : (freshMeta cfg t).Accepts x) :
    BlockExists cfg t x ↔ x < (columns t cfg.disks * (cfg.diskSize / bsize - 1) : ℕ) := by
  obtain ⟨b, rfl⟩ : ∃ b : ℕ, x = b := ⟨x.toNat, (Int.toNat_of_nonneg hx.2.1).symm⟩
  rw [Int.ofNat_lt, ← onDisk_readPlace_iff ht]
  constructor
  · -- a read on a fresh array asks for the block
    intro hexists
    obtain ⟨s₁, hinit, hs₁⟩ := exec_initRaid_blank ht.pos ht.ne_other blankMachine_blank
    have htraces := (hexists blankMachine _ s₁ [] s₁ (some (bytes 0)) hinit .start).1
    obtain ⟨d, hd⟩ := of_traces_readFunction hs₁ ht (of_traces_readRaid hs₁ ht hx htraces)
    exact hd.2
  · intro hk s₀ r s₁ h s data hinit hr
    have hI := allMeta_ofType ht hinit hr
    have hon : ∀ w, Access.AtBlock (readPlace t cfg.disks b).2 w → Access.OnDisk cfg w := by
      intro w hw
      have hpos : 1 ≤ (readPlace t cfg.disks b).2 := by
        rw [readPlace_snd ht]
        exact Nat.le_add_left 1 _
      cases w with
      | read d blockno =>
        obtain rfl : blockno = _ := hw
        exact ⟨hpos, hk⟩
      | write d blockno =>
        obtain rfl : blockno = _ := hw
        exact ⟨hpos, hk⟩
      | _ => trivial
    exact ⟨(traces_readRaid_block ht.ne_other hI b data).mono hon,
      (traces_writeRaid_block ht.ne_other hI b data).mono hon⟩

theorem blockExists_iff_four : Supports .RAID5 (smallConfig 4).disks ∧
    (freshMeta (smallConfig 4) .RAID5).Accepts 20 ∧ BlockExists (smallConfig 4) .RAID5 20 := by
  have ht : Supports .RAID5 (smallConfig 4).disks := by decide
  have hx : (freshMeta (smallConfig 4) .RAID5).Accepts 20 := by decide
  exact ⟨ht, hx, (blockExists_iff ht hx).2 (by decide)⟩

/-- **An advertised block that does not exist.**  Four disks of eight blocks of 1024 bytes have room
for 28 blocks besides the metadata; `init_raid` advertises 60. -/
theorem advertised_block_missing : ¬ ∀ x : ℤ, (freshMeta (smallConfig 4) .RAID0).Accepts x →
    BlockExists (smallConfig 4) .RAID0 x := by
  intro hexist
  have ht : Supports .RAID0 (smallConfig 4).disks := by decide
  have hx : (freshMeta (smallConfig 4) .RAID0).Accepts 28 := by decide
  obtain ⟨s, hinit, hs⟩ := exec_initRaid_blank ht.pos ht.ne_other blankMachine_blank
  have hread := (hexist 28 hx blankMachine _ s [] s (some (bytes 0)) hinit .start).1
  obtain ⟨d, hd⟩ := of_traces_readFunction hs ht (of_traces_readRaid (b := 28) hs ht hx hread)
  exact absurd hd.2 (by decide)

end RaidSystem
