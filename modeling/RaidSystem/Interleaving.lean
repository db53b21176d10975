/-
**Accesses that run at the same time.**

`read_raid` and `write_raid` take no lock.  A call gives up the processor only inside `read_block`
and `write_block`, where it sleeps until the device is done; other calls may run meanwhile, and work
on the same `raid_metadata` and the same cache slots.  This module models the calls of `RAID4` and
`RAID5` arrays that way.  A block transfer is one step, and control may pass to another process
before it and after it.

The functions are those of `RaidSystem/RaidRw.lean`, cut at the transfers.  What a call needs to
know across a transfer is in its `Frame`, the local variables of the source; everything else it
reads again afterwards, as the source does.  So `raid_write_updateparity_cache` uses, for its second
transfer, the stripe that is cached at that time.

* `Frame`, `Transfer`, `Point`, `Pc` — the state of a call;
* `cacheLoop`, `cacheParity`, `afterCache`, `updateParity`, `syncParity`, `storeData` — the code
  between transfers;
* `enter`, `resume` — starting a call, and continuing it up to its next transfer;
* `System`, `Action`, `step` — the processes and their interleaving;
* `runs_enter_iff` — **a call that is not interrupted** does what the call of `RaidSystem/Raid.lean`
  does.

The calls on arrays of other types, and the other calls, are taken as one step.
-/

import RaidSystem.StripeCache

set_option autoImplicit false

namespace RaidSystem.Concurrent

open Prog Function

/-! ### The state of a call -/

/-- The local variables of a call. -/
structure Frame where
  write : Bool
  diskn : ℕ
  stripe : ℕ
  /-- The argument of `cache`. -/
  parityDisk : ℤ
  paddrData : Block

/-- A call of `read_block` or `write_block` with a cache slot, its arguments evaluated. -/
inductive Transfer
  | read (diskn : ℤ) (blockno : ℕ) (slot : ℤ)
  | write (diskn : ℤ) (blockno : ℕ) (slot : ℤ)

/-- Where a call continues after a transfer. -/
inductive Point
  /-- In the loop of `cache`, after disk `i`. -/
  | loop (i : ℕ)
  /-- At the end of `cache`. -/
  | cached
  /-- In `raid_write_updateparity_cache`, after the parity block. -/
  | synced
  /-- At its end. -/
  | stored

/-- A call in progress is always inside a transfer. -/
inductive Pc
  /-- The transfer has not taken place yet. -/
  | before (f : Frame) (x : Transfer) (k : Point)
  /-- The transfer has taken place. -/
  | after (f : Frame) (k : Point)

/-- What a piece of a call leads to: its end, or the next transfer. -/
inductive Progress
  | returned (r : Reply)
  | inside (pc : Pc)

/-! ### The code between transfers -/

variable (cfg : Config)

def Transfer.run : Transfer → Kernel Unit
  | .read diskn blockno slot => do
    let b ← readBlock cfg diskn blockno
    loadSlot cfg slot b
  | .write diskn blockno slot => do
    let b ← storeSlot cfg slot
    writeBlock cfg diskn blockno b

/-- The end of a write. -/
def Frame.reply (f : Frame) : Reply := { code := 0, data := some f.paddrData }

/-- `raid_write_updateparity_cache` after the parity block was written. -/
def storeData (f : Frame) : Kernel Progress := do
  if ← dead cfg (f.diskn - 1) then pure (.returned f.reply)
  else
    let m ← metadata
    pure (.inside (.before f (.write f.diskn m.stripe.toNat (f.diskn - 1)) .stored))

/-- `raid_write_updateparity_cache` after its loop. -/
def syncParity (f : Frame) : Kernel Progress := do
  let m ← metadata
  if ← dead cfg m.parityCached then storeData cfg f
  else
    pure (.inside (.before f (.write (m.parityCached + 1) m.stripe.toNat m.parityCached) .synced))

/-- `raid_write_updateparity_cache` up to the first transfer. -/
def updateParity (f : Frame) : Kernel Progress := do
  let m ← metadata
  let p ← slotSector cfg m.parityCached blocksize
  let d ← slotSector cfg (f.diskn - 1) blocksize
  modify fun s => { s with page := forBytes (fun i => updateByte p d (f.paddrData.1 i)) s.page }
  syncParity cfg f

/-- The end of a read. -/
def readSlot (f : Frame) : Kernel Progress := do
  ifTrue (dead cfg (f.diskn - 1)) (raidTocacheRecovery cfg f.diskn)
  let r ← copyOut cfg f.diskn f.paddrData
  pure (.returned { code := r.1, data := some r.2 })

/-- What follows the call of `cache`. -/
def afterCache (f : Frame) : Kernel Progress :=
  if f.write then do
    ifTrue (dead cfg (f.diskn - 1)) (raidTocacheRecovery cfg f.diskn)
    updateParity cfg f
  else readSlot cfg f

/-- `cache` after its loop. -/
def cacheParity (f : Frame) : Kernel Progress := do
  setMetadata fun m => { m with parityCached := f.parityDisk, parityDisk := f.parityDisk }
  let m ← metadata
  if ← dead cfg m.parityDisk then afterCache cfg f
  else
    pure (.inside (.before f (.read (m.parityCached + 1) f.stripe m.parityCached) .cached))

/-- The loop of `cache`, at disk `i` with `k` rounds left, up to the next transfer. -/
def cacheLoop (f : Frame) : ℕ → ℕ → Kernel Progress
  | _, 0 => cacheParity cfg f
  | i, k + 1 => do
    if ← dead cfg (i - 1) then cacheLoop f (i + 1) k
    else pure (.inside (.before f (.read i f.stripe (i - 1)) (.loop i)))

/-- What the access functions do once the data disk, the stripe and the parity disk are known. -/
def enterStripe (f : Frame) : Kernel Progress := do
  let m ← metadata
  if m.stripe = f.stripe then
    if f.write then updateParity cfg f else readSlot cfg f
  else
    setMetadata fun m => { m with stripe := f.stripe }
    let m ← metadata
    cacheLoop cfg f 1 m.numOfDisks

/-- `read_raid4` and `write_raid4`. -/
def enterRaid4 (write : Bool) (blkn : ℕ) (paddrData : Block) : Kernel Progress := do
  let m ← metadata
  if m.maxDeadDisks ≤ m.numDeadDisks then
    pure (.returned { code := -1, data := some paddrData })
  else
    divisor m.numOfDisks
    let (diskn, stripe) :=
      if write then writeRaid4Addr m.numOfDisks blkn else readRaid4Addr m.numOfDisks blkn
    enterStripe cfg { write, diskn, stripe, parityDisk := m.parityDisk, paddrData }

/-- `read_raid5` and `write_raid5`. -/
def enterRaid5 (write : Bool) (blkn : ℕ) (paddrData : Block) : Kernel Progress := do
  let m ← metadata
  if m.maxDeadDisks ≤ m.numDeadDisks then
    pure (.returned { code := -1, data := some paddrData })
  else
    divisor (m.numOfDisks - 1)
    divisor m.numOfDisks
    let (dataDiskn, parityDiskn, stripe) :=
      if write then writeRaid5Addr m.numOfDisks blkn else readRaid5Addr m.numOfDisks blkn
    enterStripe cfg { write, diskn := dataDiskn, stripe, parityDisk := parityDiskn - 1, paddrData }

/-- The call through the table `raid_rw`. -/
def enterRaidRw (write : Bool) (blkn : ℕ) (paddrData : Block) : RaidType → Kernel Progress
  | .RAID4 => do
    emit (.raidRw (RaidType.RAID4.code * 2 % 2 ^ 32 + write.toNat))
    enterRaid4 cfg write blkn paddrData
  | .RAID5 => do
    emit (.raidRw (RaidType.RAID5.code * 2 % 2 ^ 32 + write.toNat))
    enterRaid5 cfg write blkn paddrData
  | t => do
    let r ← raidRw cfg (t.code * 2 % 2 ^ 32 + write.toNat) blkn paddrData
    pure (.returned { code := r.1, data := some r.2 })

/-- `read_raid` and `write_raid`. -/
def enterAccess (write : Bool) (blkn : ℤ) (vaddrData : Option Block) : Kernel Progress := do
  let s ← get
  match s.raidMetadata, vaddrData with
  | some m, some paddrData =>
    if m.Accepts blkn then enterRaidRw cfg write blkn.toNat paddrData m.type
    else pure (.returned { code := -1, data := vaddrData })
  | _, _ => pure (.returned { code := -1, data := vaddrData })

/-- A call, up to its first transfer. -/
def enter : Call → Kernel Progress
  | .readRaid blkn data => enterAccess cfg false blkn data
  | .writeRaid blkn data => enterAccess cfg true blkn data
  | c => do
    let r ← exec cfg c
    pure (.returned r)

/-- What follows a transfer. -/
def continueAt (f : Frame) : Point → Kernel Progress
  | .loop i => do
    let m ← metadata
    cacheLoop cfg f (i + 1) (m.numOfDisks - i)
  | .cached => afterCache cfg f
  | .synced => storeData cfg f
  | .stored => pure (.returned f.reply)

/-- One step of a call in progress: its transfer, or the code up to the next one. -/
def resume : Pc → Kernel Progress
  | .before f x k => do
    x.run cfg
    pure (.inside (.after f k))
  | .after f k => continueAt cfg f k

/-! ### Processes -/

/-- A process that is in a call. -/
structure Task where
  call : Call
  pc : Pc

/-- The machine, and the call each process is in. -/
structure System where
  machine : Machine
  procs : ℕ → Option Task

/-- Why a step does not take place. -/
inductive Stop
  /-- The process cannot take this step. -/
  | disabled
  /-- The kernel stops. -/
  | fault (e : Fault)

inductive Action
  /-- Process `p` makes a call. -/
  | call (p : ℕ) (c : Call)
  /-- Process `p` continues. -/
  | run (p : ℕ)

inductive Event
  | silent
  /-- A call returns. -/
  | returned (c : Call) (r : Reply)

/-- Run a piece of a call on the machine. -/
def onMachine {α : Type} (x : Kernel α) : Prog System Access Stop α :=
  within System.machine (fun s m => { s with machine := m }) Stop.fault x

/-- Record what a piece of the call `c` of process `p` has led to. -/
def settle (p : ℕ) (c : Call) : Progress → Prog System Access Stop Event
  | .returned r => do
    modify fun s => { s with procs := update s.procs p none }
    pure (.returned c r)
  | .inside pc => do
    modify fun s => { s with procs := update s.procs p (some { call := c, pc := pc }) }
    pure .silent

/-- One step of the system. -/
def step : Action → Prog System Access Stop Event
  | .call p c => do
    let s ← get
    match s.procs p with
    | none => do
      let g ← onMachine (enter cfg c)
      settle p c g
    | some _ => fail .disabled
  | .run p => do
    let s ← get
    match s.procs p with
    | none => fail .disabled
    | some k => do
      let g ← onMachine (resume cfg k.pc)
      settle p k.call g

section Steps

/-- What the rest of the system sees of a piece of the call `c`. -/
def Progress.event (c : Call) : Progress → Event
  | .returned r => .returned c r
  | .inside _ => .silent

/-- The state of the process afterwards. -/
def Progress.task (c : Call) : Progress → Option Task
  | .returned _ => none
  | .inside pc => some { call := c, pc := pc }

/-- The system after a piece of the call of process `p` has left the machine `machine`. -/
def System.put (s : System) (p : ℕ) (machine : Machine) (v : Option Task) : System :=
  { machine := machine, procs := update s.procs p v }

variable {cfg} {s s' : System} {e : Event} {p : ℕ} {c : Call}

@[simp] theorem put_self {M : Machine} {v : Option Task} : (s.put p M v).procs p = v :=
  update_self ..

theorem put_of_ne {q : ℕ} {M : Machine} {v : Option Task} (h : q ≠ p) :
    (s.put p M v).procs q = s.procs q :=
  update_of_ne h ..

theorem returns_settle {g : Progress} : Returns (settle p c g) s e s' ↔
    e = g.event c ∧ s' = s.put p s.machine (g.task c) := by
  cases g with
  | returned r => simp [settle, Progress.event, Progress.task, System.put, and_comm]
  | inside pc => simp [settle, Progress.event, Progress.task, System.put, and_comm]

/-- A piece of a call, and what is recorded of it. -/
theorem returns_piece {x : Kernel Progress} :
    Returns (do
      let g ← onMachine x
      settle p c g) s e s' ↔ ∃ g machine, Returns x s.machine g machine ∧
        e = g.event c ∧ s' = s.put p machine (g.task c) := by
  simp only [returns_bind, onMachine, returns_within, returns_settle]
  constructor
  · rintro ⟨g, _, ⟨machine, hx, rfl⟩, he, hs'⟩
    exact ⟨g, machine, hx, he, hs'⟩
  · rintro ⟨g, machine, hx, he, hs'⟩
    exact ⟨g, _, ⟨machine, hx, rfl⟩, he, hs'⟩

/-- **All that a call can do at its beginning.** -/
theorem returns_step_call : Returns (step cfg (.call p c)) s e s' ↔ s.procs p = none ∧
    ∃ g machine, Returns (enter cfg c) s.machine g machine ∧
      e = g.event c ∧ s' = s.put p machine (g.task c) := by
  rw [step, get_returns.bind_iff]
  cases hp : s.procs p with
  | none => simp only [returns_piece, true_and]
  | some k => simp

/-- **All that a process can do that is in a call.** -/
theorem returns_step_run : Returns (step cfg (.run p)) s e s' ↔ ∃ k, s.procs p = some k ∧
    ∃ g machine, Returns (resume cfg k.pc) s.machine g machine ∧
      e = g.event k.call ∧ s' = s.put p machine (g.task k.call) := by
  rw [step, get_returns.bind_iff]
  cases hp : s.procs p with
  | none => simp
  | some k => simp only [returns_piece, Option.some.injEq, exists_eq_left']

/-- A transfer. -/
theorem returns_resume_before {f : Frame} {x : Transfer} {k : Point} {g : Progress}
    {M M' : Machine} :
    Returns (resume cfg (.before f x k)) M g M' ↔
      g = .inside (.after f k) ∧ Returns (x.run cfg) M () M' := by
  rw [resume, returns_bind]
  constructor
  · rintro ⟨_, M₁, hx, hpure⟩
    obtain ⟨rfl, rfl⟩ := returns_pure.1 hpure
    exact ⟨rfl, hx⟩
  · rintro ⟨rfl, hx⟩
    exact ⟨(), M', hx, returns_pure.2 ⟨rfl, rfl⟩⟩

end Steps

/-! ### Calls that are not interrupted -/

section Alone

/-- What is left of a call, run to its end without interruption, returns `r` and leaves `s'`. -/
inductive Finishes : Progress → Machine → Reply → Machine → Prop
  | returned {r : Reply} {s : Machine} : Finishes (.returned r) s r s
  | inside {pc : Pc} {g : Progress} {s s₁ s' : Machine} {r : Reply} :
      Returns (resume cfg pc) s g s₁ → Finishes g s₁ r s' → Finishes (.inside pc) s r s'

/-- The piece `x` of a call, and the rest, run without interruption. -/
def Runs (x : Kernel Progress) (s : Machine) (r : Reply) (s' : Machine) : Prop :=
  ∃ g s₁, Returns x s g s₁ ∧ Finishes cfg g s₁ r s'

variable {cfg} {s s' s₁ : Machine} {m : Raid} {r r₀ : Reply} {f : Frame} {x : Transfer} {k : Point}

theorem runs_bind {α : Type} {y : Kernel α} {g : α → Kernel Progress} :
    Runs cfg (y >>= g) s r s' ↔ ∃ a s₁, Returns y s a s₁ ∧ Runs cfg (g a) s₁ r s' := by
  unfold Runs
  constructor
  · rintro ⟨v, s₂, hr, hfin⟩
    obtain ⟨a, s₁, hy, hg⟩ := returns_bind.1 hr
    exact ⟨a, s₁, hy, v, s₂, hg, hfin⟩
  · rintro ⟨a, s₁, hy, v, s₂, hg, hfin⟩
    exact ⟨v, s₂, returns_bind.2 ⟨a, s₁, hy, hg⟩, hfin⟩

theorem runs_bind_iff {α : Type} {y : Kernel α} {g : α → Kernel Progress} {a : α}
    (h : Returns y s a s₁) : Runs cfg (y >>= g) s r s' ↔ Runs cfg (g a) s₁ r s' := by
  rw [runs_bind]
  constructor
  · rintro ⟨a', s₂, hy, hg⟩
    obtain ⟨rfl, rfl⟩ := h.unique hy
    exact hg
  · intro hg
    exact ⟨a, s₁, h, hg⟩

@[simp] theorem runs_returned : Runs cfg (pure (.returned r₀)) s r s' ↔ r = r₀ ∧ s' = s := by
  unfold Runs
  constructor
  · rintro ⟨g, s₁, hr, hfin⟩
    obtain ⟨rfl, rfl⟩ := returns_pure.1 hr
    cases hfin
    exact ⟨rfl, rfl⟩
  · rintro ⟨rfl, rfl⟩
    exact ⟨_, s', returns_pure.2 ⟨rfl, rfl⟩, .returned⟩

/-- A transfer takes place and the call goes on. -/
theorem runs_transfer : Runs cfg (pure (.inside (.before f x k))) s r s' ↔
    ∃ s₁, Returns (x.run cfg) s () s₁ ∧ Runs cfg (continueAt cfg f k) s₁ r s' := by
  unfold Runs
  constructor
  · rintro ⟨g, s₁, hr, hfin⟩
    obtain ⟨rfl, rfl⟩ := returns_pure.1 hr
    cases hfin with
    | inside hbefore hfin =>
      obtain ⟨_, s₂, hx, hpure⟩ := returns_bind.1 hbefore
      obtain ⟨rfl, rfl⟩ := returns_pure.1 hpure
      cases hfin with
      | inside hafter hfin => exact ⟨_, hx, _, _, hafter, hfin⟩
  · rintro ⟨s₁, hx, g, s₂, hk, hfin⟩
    have hbefore : Returns (resume cfg (.before f x k)) s (.inside (.after f k)) s₁ :=
      returns_bind.2 ⟨(), s₁, hx, returns_pure.2 ⟨rfl, rfl⟩⟩
    exact ⟨_, s, returns_pure.2 ⟨rfl, rfl⟩, .inside hbefore (.inside hk hfin)⟩

/-- The test of a table word answers one way or the other. -/
theorem dead_answers (cfg : Config) (hm : s.raidMetadata = some m) (j : ℤ) :
    ∃ b, Returns (dead cfg j) s b s :=
  ⟨_, returns_dead.2 ⟨rfl, m, hm, rfl⟩⟩

theorem runs_storeData (hm : s.raidMetadata = some m) : Runs cfg (storeData cfg f) s r s' ↔
    Returns (syncDisk cfg m.stripe.toNat (f.diskn - 1)) s () s' ∧ r = f.reply := by
  obtain ⟨b, htest⟩ := dead_answers cfg hm (f.diskn - 1)
  rw [storeData, runs_bind_iff htest, syncDisk, htest.ifFalse_iff]
  cases b with
  | true => simp [and_comm]
  | false =>
    rw [if_neg (by simp), runs_bind_iff (metadata_returns hm), runs_transfer]
    simp [Transfer.run, continueAt]

/-- Writing the slots of the parity disk and of the data disk back. -/
theorem runs_syncParity (hm : s.raidMetadata = some m) : Runs cfg (syncParity cfg f) s r s' ↔
    Returns (do
      syncDisk cfg m.stripe.toNat m.parityCached
      syncDisk cfg m.stripe.toNat (f.diskn - 1)) s () s' ∧ r = f.reply := by
  have hkeep : ∀ s₁, Returns (syncDisk cfg m.stripe.toNat m.parityCached) s () s₁ →
      s₁.raidMetadata = some m := fun s₁ h => (dataFrame_raidMetadata.syncDisk _ _ _ h).trans hm
  obtain ⟨b, htest⟩ := dead_answers cfg hm m.parityCached
  rw [syncParity, runs_bind_iff (metadata_returns hm), runs_bind_iff htest, returns_bind]
  cases b with
  | true =>
    have hskip : Returns (syncDisk cfg m.stripe.toNat m.parityCached) s () s :=
      htest.ifFalse_iff.2 (.inl ⟨rfl, rfl⟩)
    rw [if_pos rfl, runs_storeData hm]
    refine and_congr_left fun _ => ⟨fun h => ⟨(), s, hskip, h⟩, ?_⟩
    rintro ⟨_, s₁, h₁, h⟩
    rwa [(hskip.unique h₁).2]
  | false =>
    have hsync : ∀ s₁, Returns (syncDisk cfg m.stripe.toNat m.parityCached) s () s₁ ↔
        Returns (Transfer.run cfg (.write (m.parityCached + 1) m.stripe.toNat m.parityCached)) s ()
          s₁ := fun s₁ => by
      rw [syncDisk, htest.ifFalse_iff]
      simp [Transfer.run]
    rw [if_neg (by simp), runs_transfer]
    constructor
    · rintro ⟨s₁, hx, hk⟩
      have hs₁ := (hsync s₁).2 hx
      rw [continueAt, runs_storeData (hkeep s₁ hs₁)] at hk
      exact ⟨⟨(), s₁, hs₁, hk.1⟩, hk.2⟩
    · rintro ⟨⟨_, s₁, hs₁, hk⟩, hr⟩
      refine ⟨s₁, (hsync s₁).1 hs₁, ?_⟩
      rw [continueAt, runs_storeData (hkeep s₁ hs₁)]
      exact ⟨hk, hr⟩

theorem runs_updateParity (hm : s.raidMetadata = some m) : Runs cfg (updateParity cfg f) s r s' ↔
    Returns (raidWriteUpdateparityCache cfg f.diskn f.paddrData.1) s () s' ∧ r = f.reply := by
  have hmeta := metadata_returns hm
  have hpage : ∀ (s : Machine) (page : ℕ → Sector), s.raidMetadata = some m →
      Machine.raidMetadata { s with page := page } = some m := fun _ _ h => h
  rw [updateParity, raidWriteUpdateparityCache, runs_bind_iff hmeta, hmeta.bind_iff]
  simp only [runs_bind, returns_bind, returns_slotSector, returns_modify]
  constructor
  · rintro ⟨p, _, ⟨hp, rfl, rfl⟩, d, _, ⟨hd, rfl, rfl⟩, _, s₁, rfl, hrest⟩
    obtain ⟨hsync, hr⟩ := (runs_syncParity (hpage _ _ hm)).1 hrest
    obtain ⟨_, s₂, h₁, h₂⟩ := returns_bind.1 hsync
    exact ⟨⟨_, _, ⟨hp, rfl, rfl⟩, _, _, ⟨hd, rfl, rfl⟩, (), _, rfl, (), s₂, h₁, h₂⟩, hr⟩
  · rintro ⟨⟨p, _, ⟨hp, rfl, rfl⟩, d, _, ⟨hd, rfl, rfl⟩, _, s₁, rfl, _, s₂, h₁, h₂⟩, hr⟩
    refine ⟨_, _, ⟨hp, rfl, rfl⟩, _, _, ⟨hd, rfl, rfl⟩, (), _, rfl, ?_⟩
    exact (runs_syncParity (hpage _ _ hm)).2 ⟨returns_bind.2 ⟨(), s₂, h₁, h₂⟩, hr⟩

/-- The piece `x` of a call, run to its end, does what the kernel routine `y` does. -/
def Does (cfg : Config) (x : Kernel Progress) (y : Kernel (ℤ × Block)) (s : Machine) : Prop :=
  ∀ r s', Runs cfg x s r s' ↔ ∃ v, Returns y s v s' ∧ r = { code := v.1, data := some v.2 }

section Does

variable {α : Type} {z : Kernel α} {x : α → Kernel Progress} {y : α → Kernel (ℤ × Block)}

theorem Does.bind (h : ∀ a s₁, Returns z s a s₁ → Does cfg (x a) (y a) s₁) :
    Does cfg (z >>= x) (z >>= y) s := by
  intro r s'
  rw [runs_bind]
  constructor
  · rintro ⟨a, s₁, hz, hx⟩
    obtain ⟨v, hv, hr⟩ := (h a s₁ hz r s').1 hx
    exact ⟨v, returns_bind.2 ⟨a, s₁, hz, hv⟩, hr⟩
  · rintro ⟨v, hv, hr⟩
    obtain ⟨a, s₁, hz, hv⟩ := returns_bind.1 hv
    exact ⟨a, s₁, hz, (h a s₁ hz r s').2 ⟨v, hv, hr⟩⟩

theorem Does.ite {c : Prop} [Decidable c] {x₁ x₂ : Kernel Progress} {y₁ y₂ : Kernel (ℤ × Block)}
    (h₁ : c → Does cfg x₁ y₁ s) (h₂ : ¬ c → Does cfg x₂ y₂ s) :
    Does cfg (if c then x₁ else x₂) (if c then y₁ else y₂) s := by
  split
  · exact h₁ ‹_›
  · exact h₂ ‹_›

/-- A routine whose result is the reply. -/
theorem does_reply (y : Kernel (ℤ × Block)) : Does cfg (do
    let v ← y
    pure (.returned { code := v.1, data := some v.2 })) y s := by
  intro r s'
  rw [runs_bind]
  constructor
  · rintro ⟨v, s₁, hv, hr⟩
    obtain ⟨rfl, rfl⟩ := runs_returned.1 hr
    exact ⟨v, hv, rfl⟩
  · rintro ⟨v, hv, rfl⟩
    exact ⟨v, s', hv, runs_returned.2 ⟨rfl, rfl⟩⟩

theorem does_pure (c : ℤ) (b : Block) :
    Does cfg (pure (.returned { code := c, data := some b })) (pure (c, b)) s := by
  intro r s'
  rw [runs_returned]
  constructor
  · rintro ⟨rfl, rfl⟩
    exact ⟨_, returns_pure.2 ⟨rfl, rfl⟩, rfl⟩
  · rintro ⟨v, hv, rfl⟩
    obtain ⟨rfl, rfl⟩ := returns_pure.1 hv
    exact ⟨rfl, rfl⟩

end Does

theorem does_updateParity (hm : s.raidMetadata = some m) : Does cfg (updateParity cfg f) (do
    raidWriteUpdateparityCache cfg f.diskn f.paddrData.1
    pure (0, f.paddrData)) s := by
  intro r s'
  rw [runs_updateParity hm]
  constructor
  · rintro ⟨hu, rfl⟩
    exact ⟨_, returns_bind.2 ⟨(), s', hu, returns_pure.2 ⟨rfl, rfl⟩⟩, rfl⟩
  · rintro ⟨v, hv, rfl⟩
    obtain ⟨_, s₁, hu, hpure⟩ := returns_bind.1 hv
    obtain ⟨rfl, rfl⟩ := returns_pure.1 hpure
    exact ⟨hu, rfl⟩

theorem does_readSlot : Does cfg (readSlot cfg f) (do
    ifTrue (dead cfg (f.diskn - 1)) (raidTocacheRecovery cfg f.diskn)
    copyOut cfg f.diskn f.paddrData) s :=
  Does.bind fun _ _ _ => does_reply _

section

variable (hm : s.raidMetadata = some m)

include hm

/-- The loop of `cache`.  Every round finds the number of disks that the loop has started with. -/
theorem runs_cacheLoop {i n : ℕ} (hn : i + n = m.numOfDisks + 1) :
    Runs cfg (cacheLoop cfg f i n) s r s' ↔
      ∃ s₁, Returns (forRange (fun i => cacheDisk cfg f.stripe (i - 1)) i n) s () s₁ ∧
        Runs cfg (cacheParity cfg f) s₁ r s' := by
  induction n generalizing i s with
  | zero => simp [cacheLoop, forRange_zero]
  | succ n ih =>
    have hkeep : ∀ s₁, Returns (cacheDisk cfg f.stripe (i - 1)) s () s₁ →
        s₁.raidMetadata = some m := fun s₁ h => (dataFrame_raidMetadata.cacheDisk _ _ _ h).trans hm
    obtain ⟨b, htest⟩ := dead_answers cfg hm (i - 1)
    rw [cacheLoop, runs_bind_iff htest, forRange_succ]
    cases b with
    | true =>
      have hskip : Returns (cacheDisk cfg f.stripe (i - 1)) s () s :=
        htest.ifFalse_iff.2 (.inl ⟨rfl, rfl⟩)
      rw [if_pos rfl, ih hm (by omega)]
      simp only [hskip.bind_iff]
    | false =>
      have hload : ∀ s₁, Returns (cacheDisk cfg f.stripe (i - 1)) s () s₁ ↔
          Returns (Transfer.run cfg (.read i f.stripe (i - 1))) s () s₁ := fun s₁ => by
        rw [cacheDisk, htest.ifFalse_iff, sub_add_cancel]
        simp [Transfer.run]
      rw [if_neg (by simp), runs_transfer]
      constructor
      · rintro ⟨s₁, hx, hk⟩
        have hs₁ := (hload s₁).2 hx
        have hm₁ := hkeep s₁ hs₁
        rw [continueAt, runs_bind_iff (metadata_returns hm₁),
          show m.numOfDisks - i = n by omega, ih hm₁ (by omega)] at hk
        obtain ⟨s₂, hloop, hrest⟩ := hk
        exact ⟨s₂, returns_bind.2 ⟨(), s₁, hs₁, hloop⟩, hrest⟩
      · rintro ⟨s₂, hbody, hrest⟩
        obtain ⟨_, s₁, hs₁, hloop⟩ := returns_bind.1 hbody
        have hm₁ := hkeep s₁ hs₁
        refine ⟨s₁, (hload s₁).1 hs₁, ?_⟩
        rw [continueAt, runs_bind_iff (metadata_returns hm₁),
          show m.numOfDisks - i = n by omega, ih hm₁ (by omega)]
        exact ⟨s₂, hloop, hrest⟩

theorem runs_cacheParity :
    Runs cfg (cacheParity cfg f) s r s' ↔
      ∃ s₁, Returns (do
        setMetadata fun m => { m with parityCached := f.parityDisk, parityDisk := f.parityDisk }
        cacheDisk cfg f.stripe f.parityDisk) s () s₁ ∧ Runs cfg (afterCache cfg f) s₁ r s' := by
  have hset := (returns_setMetadata (u := ())
    (f := fun m => { m with parityCached := f.parityDisk, parityDisk := f.parityDisk })).2
    ⟨m, hm, rfl⟩
  rw [cacheParity, runs_bind_iff hset]
  simp only [hset.bind_iff]
  rw [runs_bind_iff (metadata_returns rfl)]
  obtain ⟨b, htest⟩ := dead_answers cfg (s := { s with
    raidMetadata := some { m with parityCached := f.parityDisk, parityDisk := f.parityDisk } }) rfl
    f.parityDisk
  rw [runs_bind_iff htest]
  cases b with
  | true =>
    rw [if_pos rfl]
    simp only [cacheDisk, htest.ifFalse_iff]
    simp
  | false =>
    rw [if_neg (by simp), runs_transfer]
    simp only [cacheDisk, htest.ifFalse_iff, Transfer.run, continueAt]
    simp

/-- Loading a stripe. -/
theorem runs_cache :
    Runs cfg (do
      setMetadata fun m => { m with stripe := f.stripe }
      let m ← metadata
      cacheLoop cfg f 1 m.numOfDisks) s r s' ↔
      ∃ s₁, Returns (cache cfg f.stripe f.parityDisk) s () s₁ ∧
        Runs cfg (afterCache cfg f) s₁ r s' := by
  have hset := (returns_setMetadata (u := ()) (f := fun m => { m with stripe := f.stripe })).2
    ⟨m, hm, rfl⟩
  have hmeta : Returns metadata _ _ _ := returns_metadata.2
    (⟨rfl, rfl⟩ : Machine.raidMetadata
      { s with raidMetadata := some { m with stripe := f.stripe } } =
      some { m with stripe := f.stripe } ∧ _)
  have hkeep : ∀ i, Preserves Machine.raidMetadata (cacheDisk cfg f.stripe i) := fun _ =>
    dataFrame_raidMetadata.cacheDisk
  rw [runs_bind_iff hset, runs_bind_iff hmeta, runs_cacheLoop rfl (Nat.add_comm _ _)]
  simp only [cache, hset.bind_iff, hmeta.bind_iff]
  constructor
  · rintro ⟨s₁, hloop, hrest⟩
    have hm₁ : s₁.raidMetadata = some { m with stripe := f.stripe } :=
      Preserves.forRange (fun i : ℕ => hkeep (i - 1)) 1 _ _ _ _ hloop
    obtain ⟨s₂, hpar, hafter⟩ := (runs_cacheParity hm₁).1 hrest
    exact ⟨s₂, returns_bind.2 ⟨(), s₁, hloop, hpar⟩, hafter⟩
  · rintro ⟨s₂, hbody, hafter⟩
    obtain ⟨_, s₁, hloop, hpar⟩ := returns_bind.1 hbody
    have hm₁ : s₁.raidMetadata = some { m with stripe := f.stripe } :=
      Preserves.forRange (fun i : ℕ => hkeep (i - 1)) 1 _ _ _ _ hloop
    exact ⟨s₁, hloop, (runs_cacheParity hm₁).2 ⟨s₂, hpar, hafter⟩⟩

/-- Loading a stripe, and what follows. -/
theorem does_cache {y : Kernel (ℤ × Block)}
    (hafter : ∀ s₁ m₁, s₁.raidMetadata = some m₁ → Does cfg (afterCache cfg f) y s₁) :
    Does cfg (do
      setMetadata fun m => { m with stripe := f.stripe }
      let m ← metadata
      cacheLoop cfg f 1 m.numOfDisks) (do
        cache cfg f.stripe f.parityDisk
        y) s := by
  intro r s'
  rw [runs_cache hm]
  constructor
  · rintro ⟨s₁, hcache, hrest⟩
    obtain ⟨v, hv, hr⟩ := (hafter s₁ _ (raidMetadata_of_cache hm hcache) r s').1 hrest
    exact ⟨v, returns_bind.2 ⟨(), s₁, hcache, hv⟩, hr⟩
  · rintro ⟨v, hv, hr⟩
    obtain ⟨_, s₁, hcache, hv⟩ := returns_bind.1 hv
    exact ⟨s₁, hcache, (hafter s₁ _ (raidMetadata_of_cache hm hcache) r s').2 ⟨v, hv, hr⟩⟩

end

theorem does_enterStripe_read (hf : f.write = false) : Does cfg (enterStripe cfg f)
    (readStripe cfg f.diskn f.stripe f.parityDisk f.paddrData) s := by
  refine Does.bind fun m s₁ hmeta => ?_
  obtain ⟨hm, rfl⟩ := returns_metadata.1 hmeta
  refine Does.ite (fun _ => ?_) fun _ => does_cache hm fun s₂ m₂ _ => ?_
  · rw [hf]
    exact does_readSlot
  · rw [afterCache, hf]
    exact does_readSlot

theorem does_enterStripe_write (hf : f.write = true) : Does cfg (enterStripe cfg f)
    (writeStripe cfg f.diskn f.stripe f.parityDisk f.paddrData) s := by
  refine Does.bind fun m s₁ hmeta => ?_
  obtain ⟨hm, rfl⟩ := returns_metadata.1 hmeta
  refine Does.ite (fun _ => ?_) fun _ => does_cache hm fun s₂ m₂ hm₂ => ?_
  · rw [hf]
    exact does_updateParity hm
  · rw [afterCache, hf]
    refine Does.bind fun _ s₃ hrec => does_updateParity (m := m₂) ?_
    exact (dataFrame_raidMetadata.rebuildSlot _ _ _ hrec).trans hm₂

theorem does_enterRaid4 (write : Bool) (blkn : ℕ) (buf : Block) :
    Does cfg (enterRaid4 cfg write blkn buf)
      (if write then writeRaid4 cfg blkn buf else readRaid4 cfg blkn buf) s := by
  cases write with
  | false =>
    exact Does.bind fun m _ _ => Does.ite (fun _ => does_pure _ _) fun _ =>
      Does.bind fun _ _ _ => does_enterStripe_read rfl
  | true =>
    exact Does.bind fun m _ _ => Does.ite (fun _ => does_pure _ _) fun _ =>
      Does.bind fun _ _ _ => does_enterStripe_write rfl

theorem does_enterRaid5 (write : Bool) (blkn : ℕ) (buf : Block) :
    Does cfg (enterRaid5 cfg write blkn buf)
      (if write then writeRaid5 cfg blkn buf else readRaid5 cfg blkn buf) s := by
  cases write with
  | false =>
    exact Does.bind fun m _ _ => Does.ite (fun _ => does_pure _ _) fun _ =>
      Does.bind fun _ _ _ => Does.bind fun _ _ _ => does_enterStripe_read rfl
  | true =>
    exact Does.bind fun m _ _ => Does.ite (fun _ => does_pure _ _) fun _ =>
      Does.bind fun _ _ _ => Does.bind fun _ _ _ => does_enterStripe_write rfl

theorem does_enterRaidRw (write : Bool) (blkn : ℕ) (buf : Block) (t : RaidType) :
    Does cfg (enterRaidRw cfg write blkn buf t)
      (raidRw cfg (t.code * 2 % 2 ^ 32 + write.toNat) blkn buf) s := by
  cases t with
  | RAID4 =>
    cases write with
    | false => exact Does.bind fun _ _ _ => does_enterRaid4 false blkn buf
    | true => exact Does.bind fun _ _ _ => does_enterRaid4 true blkn buf
  | RAID5 =>
    cases write with
    | false => exact Does.bind fun _ _ _ => does_enterRaid5 false blkn buf
    | true => exact Does.bind fun _ _ _ => does_enterRaid5 true blkn buf
  | _ => exact does_reply _

/-- An access that the guard accepts. -/
theorem runs_enterAccess_accepted {buf : Block} {blkn : ℤ} (hm : s.raidMetadata = some m)
    (hx : m.Accepts blkn) (write : Bool) :
    Runs cfg (enterAccess cfg write blkn (some buf)) s r s' ↔
      Runs cfg (enterRaidRw cfg write blkn.toNat buf m.type) s r s' := by
  rw [enterAccess, runs_bind_iff get_returns]
  simp only [hm, hx, if_true]

/-- An access that the guard refuses returns at once. -/
theorem returns_enterAccess_refused {g : Progress} {data : Option Block} {blkn : ℤ}
    (h : ¬ ∃ m buf, s.raidMetadata = some m ∧ data = some buf ∧ m.Accepts blkn) (write : Bool) :
    Returns (enterAccess cfg write blkn data) s g s' ↔
      g = .returned { code := -1, data := data } ∧ s' = s := by
  rw [enterAccess, get_returns.bind_iff]
  cases hm : s.raidMetadata with
  | none => simp
  | some m =>
    cases data with
    | none => simp
    | some buf =>
      have hx : ¬ m.Accepts blkn := fun hx => h ⟨m, buf, hm, rfl, hx⟩
      simp [hx]

theorem runs_enterAccess (write : Bool) (blkn : ℤ) (data : Option Block) :
    Runs cfg (enterAccess cfg write blkn data) s r s' ↔
      ∃ v, Returns (accessRaid cfg write.toNat blkn data) s v s' ∧
        r = { code := v.1, data := v.2 } := by
  by_cases hacc : ∃ m buf, s.raidMetadata = some m ∧ data = some buf ∧ m.Accepts blkn
  · obtain ⟨m, buf, hm, rfl, hx⟩ := hacc
    rw [runs_enterAccess_accepted hm hx, does_enterRaidRw write blkn.toNat buf m.type r s']
    simp only [returns_accessRaid hm hx]
    constructor
    · rintro ⟨v, hv, hr⟩
      exact ⟨_, ⟨v, hv, rfl⟩, hr⟩
    · rintro ⟨_, ⟨v, hv, rfl⟩, hr⟩
      exact ⟨v, hv, hr⟩
  · simp only [accessRaid_rejected hacc]
    constructor
    · rintro ⟨g, s₁, hg, hfin⟩
      obtain ⟨rfl, rfl⟩ := (returns_enterAccess_refused hacc write).1 hg
      cases hfin
      exact ⟨_, ⟨rfl, rfl⟩, rfl⟩
    · rintro ⟨_, ⟨rfl, rfl⟩, rfl⟩
      exact ⟨_, s', (returns_enterAccess_refused hacc write).2 ⟨rfl, rfl⟩, .returned⟩

/-- **A call that is not interrupted** does what the call does that is made in one piece. -/
theorem runs_enter_iff (c : Call) :
    Runs cfg (enter cfg c) s r s' ↔ Returns (exec cfg c) s r s' := by
  have hother : ∀ y : Kernel Reply, Runs cfg (do
      let r ← y
      pure (.returned r)) s r s' ↔ Returns y s r s' := by
    intro y
    rw [runs_bind]
    simp
  cases c with
  | readRaid blkn data => exact (runs_enterAccess false blkn data).trans returns_exec_readRaid.symm
  | writeRaid blkn data => exact (runs_enterAccess true blkn data).trans returns_exec_writeRaid.symm
  | _ => exact hother _

end Alone

end RaidSystem.Concurrent
