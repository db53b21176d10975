/-
**The caller's buffer.**

`read_raid` and `write_raid` take a user address.  They look up the page of the first byte and from
then on work with the physical address: the access functions move 512 or 1024 bytes from there,
whatever the size of the caller's buffer and wherever its other pages are.  This module puts the
calls of `RaidSystem/Raid.lean` in front of a memory, and compares what they do to it with
`copyout` and `copyin`.

Main definitions:

* `System`, `Trap` — the array together with physical memory; an access outside RAM stops the
  kernel;
* `readRaidAt`, `writeRaidAt` — the calls with a page table and a user address;
* `BufferExact` — a call touches exactly the caller's buffer;
* `BufferFits` — when it does: the address is null and not mapped; or the type is RAID 4 or RAID 5,
  the cache fits the page, the block is on the disks, and the buffer is mapped to consecutive
  physical addresses.

Main results:

* `bufferExact_iff` — **a healthy array touches exactly the caller's buffer iff `BufferFits`**;
* `read_overruns_buffer` — a read of a RAID 0 array overwrites 512 bytes behind the buffer.
-/

import RaidSystem.AddressSpace
import RaidSystem.MirrorArray
import RaidSystem.ParityGuarantees
import RaidSystem.StripedArray

set_option autoImplicit false

namespace RaidSystem

open Prog

/-! ### The array and memory -/

/-- The machine with physical memory. -/
structure System where
  machine : Machine
  memory : ℕ → Byte

/-- What stops the kernel. -/
inductive Trap
  | fault (f : Fault)
  /-- An access to an address that the kernel's page table does not map. -/
  | memory (addr : ℕ)

/-- Run a routine of the array. -/
def onMachine {α : Type} (x : Kernel α) : Prog System Access Trap α := fun σ =>
  { val := match (x σ.machine).val with
      | .ok a => .ok a
      | .error f => .error (.fault f)
    state := { σ with machine := (x σ.machine).state }
    trace := (x σ.machine).trace }

/-- The 1024 bytes at a physical address. -/
def blockAt (memory : ℕ → Byte) (paddr : ℕ) : Block :=
  (fun i => memory (paddr + i), fun i => memory (paddr + blocksize + i))

/-- Byte `i` of a sector. -/
def sectorByte (x : Sector) (i : ℕ) : Byte := if h : i < blocksize then x ⟨i, h⟩ else 0

/-- Byte `i` of a block. -/
def blockByte (x : Block) (i : ℕ) : Byte :=
  if i < blocksize then sectorByte x.1 i else sectorByte x.2 (i - blocksize)

/-- Use the `len` bytes at a physical address; the kernel's page table maps RAM. -/
def touch (paddr len : ℕ) : Prog System Access Trap Unit :=
  if kernbase ≤ paddr ∧ paddr + len ≤ phystop then pure () else fail (.memory paddr)

/-- The number of bytes at the buffer that the functions of a type use: `read_block` and
`write_block` move `BSIZE` bytes, the stripe cache moves `BLOCKSIZE` bytes. -/
def RaidType.transferLength : RaidType → ℕ
  | RAID4 | RAID5 => blocksize
  | _ => bsize

/-- The same for the array in memory. -/
def Machine.transferLength (s : Machine) : ℕ :=
  match s.raidMetadata with
  | some m => m.type.transferLength
  | none => 0

/-- What the access functions find at the buffer; the null pointer is refused. -/
def userBuffer (memory : ℕ → Byte) (pagetable : PageTable) (vaddr : ℕ) : Option Block :=
  if vaddr = 0 then none else some (blockAt memory (physical pagetable vaddr))

/-- `read_raid(blkn, vaddr)` by a process with the given page table. -/
def readRaidAt (cfg : Config) (pagetable : PageTable) (blkn : ℤ) (vaddr : ℕ) :
    Prog System Access Trap ℤ := do
  let σ ← get
  let r ← onMachine (readRaid cfg blkn (userBuffer σ.memory pagetable vaddr))
  if r.1 = 0 then
    touch (physical pagetable vaddr) σ.machine.transferLength
    modify fun σ' => { σ' with
      memory := match r.2 with
        | some out => memmove σ.memory (physical pagetable vaddr) (blockByte out)
            σ.machine.transferLength
        | none => σ.memory }
    pure 0
  else pure r.1

/-- `write_raid(blkn, vaddr)` by a process with the given page table. -/
def writeRaidAt (cfg : Config) (pagetable : PageTable) (blkn : ℤ) (vaddr : ℕ) :
    Prog System Access Trap ℤ := do
  let σ ← get
  let r ← onMachine (writeRaid cfg blkn (userBuffer σ.memory pagetable vaddr))
  if r.1 = 0 then
    touch (physical pagetable vaddr) σ.machine.transferLength
    pure 0
  else pure r.1

variable {cfg : Config} {t : RaidType} {pt : UserTable} {v b : ℕ} {σ σ' : System} {s s' : Machine}

section Rules

variable {α : Type} {pagetable : PageTable}

theorem returns_touch {paddr len : ℕ} {u : Unit} : Returns (touch paddr len) σ u σ' ↔
    (kernbase ≤ paddr ∧ paddr + len ≤ phystop) ∧ σ' = σ := by
  unfold touch
  by_cases h : kernbase ≤ paddr ∧ paddr + len ≤ phystop
  · simp [h]
  · rw [if_neg h]
    simp [h]

theorem returns_onMachine_bind {β : Type} {x : Kernel α} {f : α → Prog System Access Trap β}
    {a : β} :
    Returns (onMachine x >>= f) σ a σ' ↔
      ∃ r s', Returns x σ.machine r s' ∧ Returns (f r) ⟨s', σ.memory⟩ a σ' := by
  have hcall : ∀ r σ₁, Returns (onMachine x) σ r σ₁ ↔
      Returns x σ.machine r σ₁.machine ∧ σ₁ = ⟨σ₁.machine, σ.memory⟩ := by
    rintro r ⟨s₁, memory₁⟩
    unfold Returns onMachine
    cases (x σ.machine).val with
    | error f => simp
    | ok r' => simp [and_assoc, eq_comm]
  rw [returns_bind]
  constructor
  · rintro ⟨r, σ₁, hx, hf⟩
    obtain ⟨hx, heq⟩ := (hcall r σ₁).1 hx
    exact ⟨r, σ₁.machine, hx, heq ▸ hf⟩
  · rintro ⟨r, s', hx, hf⟩
    exact ⟨r, _, (hcall _ _).2 ⟨hx, rfl⟩, hf⟩

/-- A read either fails, and leaves memory alone, or delivers its bytes at the buffer. -/
theorem returns_readRaidAt {x code : ℤ} : Returns (readRaidAt cfg pagetable x v) σ code σ' ↔
    ∃ r s', Returns (readRaid cfg x (userBuffer σ.memory pagetable v)) σ.machine r s' ∧
      (r.1 ≠ 0 ∧ code = r.1 ∧ σ' = ⟨s', σ.memory⟩ ∨
        r.1 = 0 ∧ code = 0 ∧ (kernbase ≤ physical pagetable v ∧
          physical pagetable v + σ.machine.transferLength ≤ phystop) ∧
        σ' = ⟨s', match r.2 with
          | some out => memmove σ.memory (physical pagetable v) (blockByte out)
              σ.machine.transferLength
          | none => σ.memory⟩) := by
  rw [readRaidAt, get_returns.bind_iff, returns_onMachine_bind]
  refine exists_congr fun r => exists_congr fun s' => and_congr_right fun _ => ?_
  rw [returns_ite, or_comm]
  refine or_congr (and_congr_right fun _ => returns_pure) (and_congr_right fun _ => ?_)
  simp [returns_touch, and_left_comm]

theorem returns_writeRaidAt {x code : ℤ} : Returns (writeRaidAt cfg pagetable x v) σ code σ' ↔
    ∃ r s', Returns (writeRaid cfg x (userBuffer σ.memory pagetable v)) σ.machine r s' ∧
      σ' = ⟨s', σ.memory⟩ ∧ (r.1 ≠ 0 ∧ code = r.1 ∨
        r.1 = 0 ∧ code = 0 ∧ kernbase ≤ physical pagetable v ∧
          physical pagetable v + σ.machine.transferLength ≤ phystop) := by
  rw [writeRaidAt, get_returns.bind_iff, returns_onMachine_bind]
  refine exists_congr fun r => exists_congr fun s' => and_congr_right fun _ => ?_
  rw [returns_ite, or_comm, and_or_left]
  refine or_congr ?_ ?_
  · rw [returns_pure]
    tauto
  · simp [returns_touch, and_assoc, and_comm, and_left_comm]

end Rules

/-! ### What is asked of the calls -/

/-- Every page of the 512 bytes at `v` is mapped and user-accessible. -/
def Mapped (pt : UserTable) (v : ℕ) : Prop := ∀ i < blocksize, UserPage pt.pagetable (v + i)

/-- Afterwards block `b` holds `x`, and every other block what it held. -/
def StoresExactly (cfg : Config) (s s' : Machine) (b : ℕ) (x : Sector) : Prop :=
  Delivers cfg s' b x ∧ ∀ (e : ℕ) y, e ≠ b → Delivers cfg s e y → Delivers cfg s' e y

/-- The calls touch exactly the 512 bytes at `v`, as `copyout` and `copyin` do; `h` is the history
of the array. -/
structure BufferExact (cfg : Config) (pt : UserTable) (v b : ℕ) (h : List Call) (σ : System) :
    Prop where
  read : Mapped pt v → ∃ s', Returns (readRaidAt cfg pt.pagetable b v) σ 0
    ⟨s', (copyout pt.pagetable σ.memory v (sectorByte (latest h b).1) blocksize).2⟩
  write : Mapped pt v → ∃ s', Returns (writeRaidAt cfg pt.pagetable b v) σ 0 ⟨s', σ.memory⟩ ∧
    StoresExactly cfg σ.machine s' b
      fun i => (copyin pt.pagetable σ.memory (fun _ => 0) 0 v blocksize).2 i
  refused : ¬ Mapped pt v → Returns (readRaidAt cfg pt.pagetable b v) σ (-1) σ ∧
    Returns (writeRaidAt cfg pt.pagetable b v) σ (-1) σ

/-- An array on which no disk has failed: made on zero-filled disks, then read and written. -/
def HealthyArray (cfg : Config) (t : RaidType) (h : List Call) (s : Machine) : Prop :=
  ∃ s₀ s₁ r, s₀.Blank ∧ Returns (exec cfg (.initRaid t.code)) s₀ r s₁ ∧
    Reach (exec cfg) (fun _ _ c => c.isAccess = true) s₁ h s

/-- The 512 bytes at `v` are mapped to consecutive physical addresses. -/
def Contiguous (pt : UserTable) (v : ℕ) : Prop :=
  physical pt.pagetable (v + 511) = physical pt.pagetable v + 511

/-- When the calls touch exactly the caller's buffer. -/
def BufferFits (cfg : Config) (t : RaidType) (pt : UserTable) (v b : ℕ) : Prop :=
  v = 0 ∧ ¬ Mapped pt v ∨
    v ≠ 0 ∧ ParityConfig cfg t ∧ cfg.OnDisk (stripeOf cfg.disks b) ∧ Mapped pt v ∧ Contiguous pt v

/-! ### Addresses of the buffer -/

section Addresses

/-- The 512 bytes at `v` lie in at most two pages. -/
theorem walkaddr_buffer {i : ℕ} (hi : i < blocksize) :
    walkaddr pt.pagetable (v + i) =
      if v % pgsize + i < pgsize then walkaddr pt.pagetable v
      else walkaddr pt.pagetable (v + 511) := by
  have hmod := Nat.mod_lt v (show 0 < pgsize by decide)
  split
  case isTrue h =>
    refine walkaddr_congr ?_
    simp only [pgsize] at *
    omega
  case isFalse h =>
    refine walkaddr_congr ?_
    simp only [pgsize, blocksize] at *
    omega

/-- The buffer is contiguous if it does not cross a page, or if the next page is the next one in
physical memory. -/
theorem contiguous_iff : Contiguous pt v ↔ v % pgsize + 511 < pgsize ∨
    walkaddr pt.pagetable (v + 511) = walkaddr pt.pagetable v + pgsize := by
  have hmod := Nat.mod_lt v (show 0 < pgsize by decide)
  have h : walkaddr pt.pagetable (v + 511) = _ := walkaddr_buffer (show 511 < blocksize by decide)
  rw [Contiguous, physical_eq, physical_eq]
  simp only [pgsize] at *
  split at h
  · rw [h]
    omega
  · omega

theorem Contiguous.physical (hc : Contiguous pt v) {i : ℕ} (hi : i < blocksize) :
    RaidSystem.physical pt.pagetable (v + i) = RaidSystem.physical pt.pagetable v + i := by
  have hmod := Nat.mod_lt v (show 0 < pgsize by decide)
  rw [physical_eq, physical_eq, walkaddr_buffer hi]
  rcases contiguous_iff.1 hc with h | h
  · have hpage : v % pgsize + i < pgsize := by
      simp only [pgsize, blocksize] at *
      omega
    rw [if_pos hpage]
    simp only [pgsize, blocksize] at *
    omega
  · simp only [pgsize, blocksize] at *
    split <;> omega

theorem Mapped.walkaddr (hm : Mapped pt v) {i : ℕ} (hi : i < blocksize) :
    RaidSystem.walkaddr pt.pagetable (v + i) ≠ 0 :=
  (pt.walkaddr_ne_zero_iff).2 (hm i hi)

/-- A contiguous buffer lies in RAM. -/
theorem Contiguous.ram (hc : Contiguous pt v) (hm : Mapped pt v) :
    kernbase ≤ RaidSystem.physical pt.pagetable v ∧
      RaidSystem.physical pt.pagetable v + blocksize ≤ phystop := by
  have hfirst := pt.walkaddr_ram (hm 0 (by decide))
  have hlast := pt.walkaddr_ram (hm 511 (by decide))
  have hmod := Nat.mod_lt (v + 511) (show 0 < pgsize by decide)
  have hend : RaidSystem.physical pt.pagetable (v + 511) = _ := hc
  rw [physical_eq, physical_eq] at hend
  rw [physical_eq]
  rw [Nat.add_zero] at hfirst
  simp only [pgsize, blocksize] at *
  omega

/-- The byte behind the buffer is not one that `copyout` writes. -/
theorem behind_buffer {i : ℕ} (hi : i < blocksize) :
    RaidSystem.physical pt.pagetable (v + i) ≠ RaidSystem.physical pt.pagetable v + blocksize := by
  obtain ⟨j, hj⟩ := pgsize_dvd_walkaddr pt.pagetable v
  obtain ⟨k, hk⟩ := pgsize_dvd_walkaddr pt.pagetable (v + 511)
  have hmod := Nat.mod_lt v (show 0 < pgsize by decide)
  rw [physical_eq, physical_eq, walkaddr_buffer hi, hj, hk]
  simp only [pgsize, blocksize] at *
  split <;> omega

/-- If the buffer is not contiguous, the page behind its first page is not one that `copyout`
writes. -/
theorem behind_page (hc : ¬ Contiguous pt v) {i : ℕ} (hi : i < blocksize) :
    RaidSystem.physical pt.pagetable (v + i) ≠ RaidSystem.walkaddr pt.pagetable v + pgsize := by
  obtain ⟨j, hj⟩ := pgsize_dvd_walkaddr pt.pagetable v
  obtain ⟨k, hk⟩ := pgsize_dvd_walkaddr pt.pagetable (v + 511)
  have hmod := Nat.mod_lt v (show 0 < pgsize by decide)
  rw [contiguous_iff, hj, hk] at hc
  rw [physical_eq, walkaddr_buffer hi, hj, hk]
  simp only [pgsize, blocksize] at *
  split <;> omega

end Addresses

/-! ### A fresh array -/

section Fresh

variable {buf : Block} {w : ℤ × Block}

/-- The types that transfer whole blocks deliver 1024 bytes of zeros. -/
theorem fresh_read_plain (hn : 1 ≤ cfg.disks) (ht : t = .RAID0 ∨ t = .RAID1 ∨ t = .RAID0_1)
    (hs : Initialised cfg t s) (hr : Returns (readFunction cfg t b buf) s w s') :
    w = (0, 0, 0) := by
  have hm := hs.raidMetadata
  have hlive := not_dead_freshMeta cfg t
  have hmirror : ∀ {i k : ℕ}, i < cfg.disks / 2 → (freshMeta cfg t).dataDisks i = (i + 1 : ℕ) →
      1 ≤ k → Returns (readMirror cfg i k buf) s w s' → w = (0, 0, 0) := by
    intro i k hi hd hk hr
    obtain ⟨-, rfl, -⟩ := (returns_readMirror_live hm hi hd ⟨Nat.le_add_left 1 i, by omega,
      hlive _⟩).1 hr
    rw [hs.disk _ _ (by omega), hs.disk _ _ (by omega)]
  have hcolumn : ∀ {i : ℕ}, i < cfg.disks / 2 → t ≠ .RAID0 →
      (freshMeta cfg t).dataDisks i = (i + 1 : ℕ) := by
    intro i hi hne
    rw [freshMeta_dataDisks (ht.resolve_left hne) hi, Nat.cast_succ]
  rcases ht with rfl | rfl | rfl
  · rcases (returns_readRaid0 hn hm rfl).1 hr with ⟨hdead, -⟩ | ⟨-, -, rfl, -⟩
    · exact absurd hdead (hlive _)
    · have hk : 1 ≤ stripedBlock cfg b := Nat.le_add_left 1 _
      rw [hs.disk _ _ (by omega), hs.disk _ _ (by omega)]
  · rw [readFunction, readRaid1, (metadata_returns hm).bind_iff] at hr
    obtain ⟨hne, hr⟩ := of_divisor hr
    have hi := Nat.mod_lt b (Nat.pos_of_ne_zero hne)
    exact hmirror hi (hcolumn hi (by simp)) (Nat.le_add_left 1 _) hr
  · rw [readFunction, readRaid01, (metadata_returns hm).bind_iff] at hr
    obtain ⟨hne, hr⟩ := of_divisor hr
    have hi := Nat.mod_lt b (Nat.pos_of_ne_zero hne)
    exact hmirror hi (hcolumn hi (by simp)) (Nat.le_add_left 1 _) hr

/-- The types with a stripe cache need the stripe on the disks, and all slots in the page. -/
theorem fresh_read_parity (hn : 1 ≤ cfg.disks) (ht : t = .RAID4 ∨ t = .RAID5)
    (hs : Initialised cfg t s) (hr : Returns (readFunction cfg t b buf) s w s') :
    ParityConfig cfg t ∧ cfg.OnDisk (stripeOf cfg.disks b) := by
  have hm := hs.raidMetadata
  have hload : ∀ {d k p : ℕ}, (cfg.disks ≤ (freshMeta cfg t).numOfDisks ∨ cfg.disks = p) →
      (freshMeta cfg t).stripe = -1 → Returns (readStripe cfg d k ((p : ℤ) - 1) buf) s w s' →
      cfg.OnDisk k ∧ cfg.CacheFits := by
    intro d k p hp hstripe hr
    rw [readStripe, (metadata_returns hm).bind_iff, hstripe, if_neg (by omega), returns_bind] at hr
    obtain ⟨_, s₁, hcache, -⟩ := hr
    exact loads_of_cache hm hn le_rfl hp (not_dead_freshMeta cfg t _) hcache
  rcases ht with rfl | rfl
  · have hlow : ¬ (freshMeta cfg .RAID4).maxDeadDisks ≤ (freshMeta cfg .RAID4).numDeadDisks :=
      show ¬ 2 ≤ 0 by decide
    rw [readFunction, readRaid4, (metadata_returns hm).bind_iff, if_neg hlow] at hr
    obtain ⟨hne, hr⟩ := of_divisor hr
    obtain ⟨hon, hfit⟩ := hload (.inr rfl) rfl hr
    have hne : cfg.disks - 1 ≠ 0 := hne
    exact ⟨⟨.inl rfl, by omega, hfit⟩, hon⟩
  · have hlow : ¬ (freshMeta cfg .RAID5).maxDeadDisks ≤ (freshMeta cfg .RAID5).numDeadDisks :=
      show ¬ 2 ≤ 0 by decide
    rw [readFunction, readRaid5, (metadata_returns hm).bind_iff, if_neg hlow] at hr
    obtain ⟨hne, hr⟩ := of_divisor hr
    obtain ⟨hon, hfit⟩ := hload (.inl le_rfl) rfl (of_divisor hr).2
    have hne : cfg.disks - 1 ≠ 0 := hne
    exact ⟨⟨.inr rfl, by omega, hfit⟩, hon⟩

theorem returns_readRaid_fresh (ht : ∀ v, t ≠ .other v) (hb : (freshMeta cfg t).Accepts b)
    (hs : Initialised cfg t s) {r : ℤ × Option Block} :
    Returns (readRaid cfg b (some buf)) s r s' ↔
      ∃ w, Returns (readFunction cfg t b buf) s w s' ∧ r = (w.1, some w.2) := by
  have htype := freshMeta_type cfg t
  have hother : ∀ v, (freshMeta cfg t).type ≠ .other v := by rwa [htype]
  rw [returns_readRaid_type hs.raidMetadata hb hother, htype]

/-- Whatever the type, a read of a fresh array succeeds and delivers zeros, if it returns. -/
theorem fresh_read (hn : 1 ≤ cfg.disks) (ht : ∀ v, t ≠ .other v) (hb : (freshMeta cfg t).Accepts b)
    (hs : Initialised cfg t s) (hr : Returns (readFunction cfg t b buf) s w s') :
    w.1 = 0 ∧ w.2.1 = 0 := by
  have hparity : t = .RAID4 ∨ t = .RAID5 → w.1 = 0 ∧ w.2.1 = 0 := by
    intro hp
    obtain ⟨hc, hon⟩ := fresh_read_parity hn hp hs hr
    obtain ⟨s₁, hr₁, -⟩ := (Keeps.start hc hs).read hc hon buf
    have hread := (returns_readRaid_fresh ht hb hs).2 ⟨w, hr, rfl⟩
    obtain ⟨heq, -⟩ := (returns_exec_readRaid.2 ⟨_, hread, rfl⟩).unique hr₁
    simp only [Reply.mk.injEq, Option.some_inj, and_true] at heq
    exact ⟨heq.1, by rw [heq.2]; rfl⟩
  cases t with
  | RAID0 => simp [fresh_read_plain hn (.inl rfl) hs hr]
  | RAID1 => simp [fresh_read_plain hn (.inr (.inl rfl)) hs hr]
  | RAID0_1 => simp [fresh_read_plain hn (.inr (.inr rfl)) hs hr]
  | RAID4 => exact hparity (.inl rfl)
  | RAID5 => exact hparity (.inr rfl)
  | other v => exact absurd rfl (ht v)

theorem Initialised.transferLength (hs : Initialised cfg t s) :
    s.transferLength = t.transferLength := by
  simp only [Machine.transferLength, hs.raidMetadata, freshMeta_type]

/-- **All that a read of a fresh array can do**, at an address other than null. -/
theorem fresh_readRaidAt (hn : 1 ≤ cfg.disks) (ht : ∀ v, t ≠ .other v)
    (hb : (freshMeta cfg t).Accepts b) (hs : Initialised cfg t σ.machine) (hv : v ≠ 0) {code : ℤ}
    (hr : Returns (readRaidAt cfg pt.pagetable b v) σ code σ') :
    code = 0 ∧ ∃ w s', Returns (readFunction cfg t b
        (blockAt σ.memory (physical pt.pagetable v))) σ.machine w s' ∧
      σ'.memory = memmove σ.memory (physical pt.pagetable v) (blockByte w.2) t.transferLength := by
  obtain ⟨r, s', hread, hcases⟩ := returns_readRaidAt.1 hr
  rw [userBuffer, if_neg hv, returns_readRaid_fresh ht hb hs] at hread
  obtain ⟨w, hw, rfl⟩ := hread
  rcases hcases with ⟨hne, -⟩ | ⟨-, rfl, -, rfl⟩
  · exact absurd (fresh_read hn ht hb hs hw).1 hne
  · exact ⟨rfl, w, s', hw, by rw [hs.transferLength]⟩

/-- There is a healthy array of every type. -/
theorem healthyArray_fresh (hn : 1 ≤ cfg.disks) (ht : ∀ v, t ≠ .other v) :
    ∃ s, HealthyArray cfg t [] s ∧ Initialised cfg t s := by
  obtain ⟨s, hr, hs⟩ := exec_initRaid_blank hn ht blankMachine_blank
  exact ⟨s, ⟨blankMachine, s, _, blankMachine_blank, hr, .start⟩, hs⟩

end Fresh

/-! ### The null pointer -/

/-- The null pointer is refused. -/
theorem readRaidAt_null (cfg : Config) (pagetable : PageTable) (x : ℤ) (σ : System) :
    Returns (readRaidAt cfg pagetable x 0) σ (-1) σ := by
  refine returns_readRaidAt.2 ⟨(-1, none), σ.machine, ?_, .inl ⟨by decide, rfl, rfl⟩⟩
  exact (accessRaid_rejected (by simp [userBuffer])).2 ⟨rfl, rfl⟩

theorem writeRaidAt_null (cfg : Config) (pagetable : PageTable) (x : ℤ) (σ : System) :
    Returns (writeRaidAt cfg pagetable x 0) σ (-1) σ := by
  refine returns_writeRaidAt.2 ⟨(-1, none), σ.machine, ?_, rfl, .inl ⟨by decide, rfl⟩⟩
  exact (accessRaid_rejected (by simp [userBuffer])).2 ⟨rfl, rfl⟩

/-! ### When the buffer does not fit -/

/-- Memory full of ones, which shows every zero that a read of a fresh array stores. -/
def ones : ℕ → Byte := fun _ => Bits.ofNat 8 1

/-- A read that stores a zero where `copyout` does not write is not exact. -/
theorem copyout_ne_of_zero {src : ℕ → Byte} {w : Block} {a len : ℕ}
    (ha : ∀ i < blocksize, physical pt.pagetable (v + i) ≠ a)
    (hrange : physical pt.pagetable v ≤ a ∧ a < physical pt.pagetable v + len)
    (hw : blockByte w (a - physical pt.pagetable v) = 0) :
    (copyout pt.pagetable ones v src blocksize).2 ≠
      memmove ones (physical pt.pagetable v) (blockByte w) len := by
  intro heq
  have hbyte := congrFun heq a
  rw [copyout_frame ha, memmove, if_pos hrange, hw, ones] at hbyte
  exact absurd hbyte (by decide)

/-- Calls that touch exactly the buffer, on a fresh array, need `BufferFits`. -/
theorem bufferFits_of_fresh (hn : 1 ≤ cfg.disks) (ht : ∀ v, t ≠ .other v)
    (hb : (freshMeta cfg t).Accepts b) (hs : Initialised cfg t s)
    (hex : BufferExact cfg pt v b [] ⟨s, ones⟩) : BufferFits cfg t pt v b := by
  by_cases hm : Mapped pt v
  · obtain ⟨s', hr⟩ := hex.read hm
    have hv : v ≠ 0 := by
      rintro rfl
      exact absurd (hr.unique (readRaidAt_null cfg pt.pagetable b _)).1 (by decide)
    obtain ⟨-, w, s₁, hw, hmem⟩ := fresh_readRaidAt hn ht hb hs hv hr
    -- a block of 1024 bytes runs over the end of the buffer
    have hplain : t = .RAID0 ∨ t = .RAID1 ∨ t = .RAID0_1 → BufferFits cfg t pt v b := by
      intro hp
      have hzero := fresh_read_plain hn hp hs hw
      have hlen : t.transferLength = bsize := by
        rcases hp with rfl | rfl | rfl <;> rfl
      refine absurd hmem (copyout_ne_of_zero (fun i => behind_buffer) ?_ ?_)
      · rw [hlen]
        exact ⟨Nat.le_add_right _ _, Nat.add_lt_add_left (by decide) _⟩
      · rw [hzero, Nat.add_sub_cancel_left]
        rfl
    -- a sector runs over the end of a page
    have hparity : t = .RAID4 ∨ t = .RAID5 → BufferFits cfg t pt v b := by
      intro hp
      obtain ⟨hc, hon⟩ := fresh_read_parity hn hp hs hw
      refine .inr ⟨hv, hc, hon, hm, ?_⟩
      by_contra hcross
      have hlen : t.transferLength = blocksize := by
        rcases hp with rfl | rfl <;> rfl
      have hpage : ¬ v % pgsize + 511 < pgsize := fun h => hcross (contiguous_iff.2 (.inl h))
      have hmod := Nat.mod_lt v (show 0 < pgsize by decide)
      have hin : walkaddr pt.pagetable v + pgsize - physical pt.pagetable v < blocksize := by
        rw [physical_eq]
        simp only [pgsize, blocksize] at *
        omega
      have hrange : physical pt.pagetable v ≤ walkaddr pt.pagetable v + pgsize := by
        rw [physical_eq]
        omega
      refine absurd hmem (copyout_ne_of_zero (fun i => behind_page hcross) ⟨hrange, by omega⟩ ?_)
      rw [blockByte, if_pos hin, sectorByte, dif_pos hin, (fresh_read hn ht hb hs hw).2]
      rfl
    cases t with
    | RAID0 => exact hplain (.inl rfl)
    | RAID1 => exact hplain (.inr (.inl rfl))
    | RAID0_1 => exact hplain (.inr (.inr rfl))
    | RAID4 => exact hparity (.inl rfl)
    | RAID5 => exact hparity (.inr rfl)
    | other v => exact absurd rfl (ht v)
  · rcases eq_or_ne v 0 with hv | hv
    · exact .inl ⟨hv, hm⟩
    · have hcode := (fresh_readRaidAt hn ht hb hs hv (hex.refused hm).1).1
      exact absurd hcode (by decide)

/-! ### When it does -/

theorem HealthyArray.keeps {h : List Call} (hs : HealthyArray cfg t h s) (hc : ParityConfig cfg t) :
    Keeps cfg t none h s := by
  obtain ⟨s₀, s₁, r, hblank, hinit, hreach⟩ := hs
  obtain ⟨s₂, hinit', hstart⟩ := init_keeps hc hblank
  obtain ⟨-, rfl⟩ := hinit.unique hinit'
  exact keeps_of_accesses hc hstart hreach

theorem Keeps.transferLength {f : Option ℕ} {h : List Call} (hkeep : Keeps cfg t f h s)
    (hc : ParityConfig cfg t) : s.transferLength = blocksize := by
  obtain ⟨L, m, hL, -⟩ := hkeep
  rw [Machine.transferLength, hL.raidMetadata]
  rcases hc.type with rfl | rfl
  · simp [hL.shape.type, RaidType.transferLength]
  · simp [hL.shape.type, RaidType.transferLength]

/-- Only the first 512 bytes matter for a move of 512 bytes. -/
theorem memmove_blockByte (mem : ℕ → Byte) (p : ℕ) (x y : Sector) :
    memmove mem p (blockByte (x, y)) blocksize = memmove mem p (sectorByte x) blocksize := by
  funext a
  simp only [memmove]
  split
  case isTrue h => rw [blockByte, if_pos (by omega)]
  case isFalse h => rfl

section Fits

variable {h : List Call} {mem : ℕ → Byte} (hkeep : Keeps cfg t none h s) (hc : ParityConfig cfg t)
  (hon : cfg.OnDisk (stripeOf cfg.disks b)) (hv : v ≠ 0) (hm : Mapped pt v)
  (hcont : Contiguous pt v)

include hkeep hc hon hv hm hcont

theorem read_exact : ∃ s', Returns (readRaidAt cfg pt.pagetable b v) ⟨s, mem⟩ 0
    ⟨s', (copyout pt.pagetable mem v (sectorByte (latest h b).1) blocksize).2⟩ := by
  obtain ⟨s', hr, -⟩ := hkeep.read hc hon (blockAt mem (physical pt.pagetable v))
  obtain ⟨r, hread, hreply⟩ := returns_exec_readRaid.1 hr
  simp only [Reply.mk.injEq, and_true] at hreply
  have hlen := hkeep.transferLength hc
  refine ⟨s', returns_readRaidAt.2 ⟨r, s', ?_, .inr ⟨hreply.1.symm, rfl, ?_, ?_⟩⟩⟩
  · rwa [userBuffer, if_neg hv]
  · rw [hlen]
    exact hcont.ram hm
  · simp only [← hreply.2, hlen, memmove_blockByte]
    rw [copyout_of_contiguous (fun i hi => hm.walkaddr hi) fun i hi => hcont.physical hi]

theorem write_exact : ∃ s', Returns (writeRaidAt cfg pt.pagetable b v) ⟨s, mem⟩ 0 ⟨s', mem⟩ ∧
    StoresExactly cfg s s' b
      fun i => (copyin pt.pagetable mem (fun _ => 0) 0 v blocksize).2 i := by
  obtain ⟨s', hr, hs'⟩ := hkeep.write hc hon (hkeep.slotCurrent hc b)
    (blockAt mem (physical pt.pagetable v))
  obtain ⟨r, hwrite, hreply⟩ := returns_exec_writeRaid.1 hr
  simp only [Reply.mk.injEq, and_true] at hreply
  have hlen := hkeep.transferLength hc
  refine ⟨s', returns_writeRaidAt.2 ⟨r, s', ?_, rfl, .inr ⟨hreply.1.symm, rfl, ?_⟩⟩, ?_, ?_⟩
  · rwa [userBuffer, if_neg hv]
  · rw [hlen]
    exact hcont.ram hm
  · obtain ⟨s₁, hr₁, -⟩ := hs'.read hc hon 0
    refine ⟨0, _, s₁, hr₁, rfl, ?_⟩
    rw [latest_write, if_pos rfl,
      copyin_of_contiguous (fun i hi => hm.walkaddr hi) fun i hi => hcont.physical hi]
    simp [memmove, blockAt]
  · rintro e y hne ⟨buf, r₁, s₁, hr₁, hcode, hy⟩
    obtain ⟨L, m, hL, -⟩ := id hkeep
    rcases readRaid_cases hc hL.raidMetadata hL.shape hr₁ with ⟨hrej, -⟩ | ⟨e', _, he, hbuf, hon'⟩
    · omega
    · obtain rfl := Int.natCast_inj.1 he
      have hans := ((hkeep.readsLatest hc).2 _ _ _ _ hr₁ hcode).2 _ _ rfl
      obtain ⟨s₂, hr₂, -⟩ := hs'.read hc hon' 0
      refine ⟨0, _, s₂, hr₂, rfl, ?_⟩
      rw [latest_write, if_neg (by omega)]
      exact hans.symm.trans hy

end Fits

theorem bufferExact_of_fits {h : List Call} (hs : HealthyArray cfg t h s)
    (hfits : BufferFits cfg t pt v b) (mem : ℕ → Byte) : BufferExact cfg pt v b h ⟨s, mem⟩ := by
  rcases hfits with ⟨rfl, hm⟩ | ⟨hv, hc, hon, hm, hcont⟩
  · exact ⟨fun h => absurd h hm, fun h => absurd h hm,
      fun _ => ⟨readRaidAt_null cfg _ _ _, writeRaidAt_null cfg _ _ _⟩⟩
  · have hkeep := hs.keeps hc
    exact ⟨fun _ => read_exact hkeep hc hon hv hm hcont,
      fun _ => write_exact hkeep hc hon hv hm hcont, fun h => absurd hm h⟩

/-- **A healthy array touches exactly the caller's buffer iff `BufferFits`.** -/
theorem bufferExact_iff (hn : 1 ≤ cfg.disks) (ht : ∀ v, t ≠ .other v)
    (hb : (freshMeta cfg t).Accepts b) :
    (∀ h s, HealthyArray cfg t h s → ∀ mem, BufferExact cfg pt v b h ⟨s, mem⟩) ↔
      BufferFits cfg t pt v b := by
  constructor
  · intro hall
    obtain ⟨s, hs, hinit⟩ := healthyArray_fresh hn ht
    exact bufferFits_of_fresh hn ht hb hinit (hall [] s hs ones)
  · intro hfits h s hs mem
    exact bufferExact_of_fits hs hfits mem

/-- The entry of a user page at physical address `0x80100000`. -/
def onePte : Pte := (0x80100 <<< 10) ||| 0x17

/-- A page table with one user page, at virtual address `0x1000`. -/
def onePageTable : PageTable :=
  fun i => if i.val = 0 then some fun j => if j.val = 0 then some fun k =>
    if k.val = 1 then onePte else 0 else none else none

theorem onePageTable_ram (va : ℕ) (pte : Pte) (hw : walk onePageTable va = some pte)
    (hv : pte.valid = true) : kernbase ≤ pte2pa pte ∧ pte2pa pte + pgsize ≤ phystop := by
  have hpte : pte = onePte ∨ pte = 0 := by
    unfold walk onePageTable at hw
    grind
  rcases hpte with rfl | rfl
  · decide
  · exact absurd hv (by decide)

/-- A process with that page table. -/
def onePage : UserTable where
  pagetable := onePageTable
  ram := fun va pte hw hv _ => onePageTable_ram va pte hw hv

theorem mapped_onePage : Mapped onePage 4096 := by
  intro i hi
  have hwalk : walk onePage.pagetable (4096 + i) = walk onePage.pagetable 4096 := by
    refine walk_congr ?_
    simp only [pgsize, blocksize] at *
    omega
  exact ⟨onePte, hwalk.trans (by decide), by decide, by decide⟩

theorem bufferExact_iff_three : BufferFits (smallConfig 3) .RAID4 onePage 4096 0 ∧
    ∀ h s, HealthyArray (smallConfig 3) .RAID4 h s →
      ∀ mem, BufferExact (smallConfig 3) onePage 4096 0 h ⟨s, mem⟩ := by
  have hfits : BufferFits (smallConfig 3) .RAID4 onePage 4096 0 :=
    .inr ⟨by decide, ⟨.inl rfl, by decide, by decide⟩, by decide, mapped_onePage,
      contiguous_iff.2 (.inl (by decide))⟩
  exact ⟨hfits, (bufferExact_iff (by decide) (fun _ h => by cases h) (by decide)).2 hfits⟩

/-- **A read overruns the buffer**: a RAID 0 array stores 1024 bytes where the caller has 512. -/
theorem read_overruns_buffer : Mapped onePage 4096 ∧
    ∃ s, HealthyArray (smallConfig 2) .RAID0 [] s ∧
      ¬ BufferExact (smallConfig 2) onePage 4096 0 [] ⟨s, ones⟩ := by
  have hother : ∀ v, RaidType.RAID0 ≠ .other v := fun _ h => by cases h
  obtain ⟨s, hs, hinit⟩ := healthyArray_fresh (show 1 ≤ (smallConfig 2).disks by decide) hother
  refine ⟨mapped_onePage, s, hs, fun hex => ?_⟩
  rcases bufferFits_of_fresh (by decide) hother (by decide) hinit hex with ⟨h, -⟩ | ⟨-, hc, -⟩
  · cases h
  · rcases hc.type with h | h <;> cases h

end RaidSystem
