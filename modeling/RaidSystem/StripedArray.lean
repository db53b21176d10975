/-
**Striped arrays: `RAID0`.**

Block `b` of a `RAID0` array is block `b / DISKS + 1` of disk `b % DISKS + 1`.  There is no
redundancy, so an access should fail exactly when that disk is dead.  `read_raid0` tests the state
of the disk.  `write_raid0` has reused the variable `blkn` for the number of the block on the disk
when it comes to the test, and so tests `disk_state[b / DISKS]`: the state of some other disk, or a
word behind the table.

Main definitions:

* `latestOk` — the latest write to a block that succeeded;
* `FailsExactly` — an access to a block fails exactly when its disk is dead, a failed one changes
  nothing, and a read delivers the latest write;
* `TestsOwnDisk` — the word that `write_raid0` tests agrees with the state of the disk of the block,
  and the block lies on the disk.

Main results:

* `returns_readRaid0`, `returns_writeRaid0` — all that the two functions can do;
* `fails_exactly_iff` — **along every run, accesses to a block fail exactly when they should if and
  only if the write tests the right state**;
* `write_to_dead_disk_succeeds` — **a write to a dead disk returns `0`**.
-/

import RaidSystem.Accesses
import RaidSystem.MetadataSteps

set_option autoImplicit false

namespace RaidSystem

open Prog

variable {cfg : Config} {s s' : Machine} {m : Raid} {r : Reply} {c : Call} {b : ℕ} {buf : Block}
  {l : List (Call × Reply)}

/-! ### Definitions -/

/-- What the latest write to block `b` that returned `0` has written. -/
def latestOk : List (Call × Reply) → ℕ → Option Block
  | [], _ => none
  | (.writeRaid x (some data), r) :: l, b =>
    if x = b ∧ r.code = 0 then some data else latestOk l b
  | _ :: l, b => latestOk l b

/-- The disk and the place on it of block `b`. -/
def stripedDisk (cfg : Config) (b : ℕ) : ℕ := b % cfg.disks + 1

def stripedBlock (cfg : Config) (b : ℕ) : ℕ := b / cfg.disks + 1

/-- The metadata of a striped array. -/
structure StripedMeta (cfg : Config) (m : Raid) : Prop where
  raidInitialized : m.raidInitialized = true
  type : m.type = .RAID0
  numOfDisks : m.numOfDisks = cfg.disks
  maxBlocks : m.maxBlocks = capacity cfg cfg.disks

/-- A call returns `-1` if the disk is dead and `0` otherwise, and if it returns `-1`, it changes
neither the machine nor the buffer. -/
def FailsIf (cfg : Config) (s : Machine) (c : Call) (buf : Block) (isDead : Prop) (r : Reply)
    (s' : Machine) : Prop :=
  Returns (exec cfg c) s r s' ∧ (isDead → r.code = -1) ∧ (¬ isDead → r.code = 0) ∧
    (r.code = -1 → s' = s ∧ r.data = some buf)

/-- The accesses to block `b` fail exactly when its disk is dead, and a read that succeeds delivers
the latest write that succeeded. -/
def FailsExactly (cfg : Config) (l : List (Call × Reply)) (s : Machine) (m : Raid) (b : ℕ)
    (buf : Block) : Prop :=
  (∃ r s', FailsIf cfg s (.readRaid b (some buf)) buf (m.Dead (stripedDisk cfg b)) r s' ∧
    (r.code = 0 → ∀ data, latestOk l b = some data → r.data = some data)) ∧
  ∃ r s', FailsIf cfg s (.writeRaid b (some buf)) buf (m.Dead (stripedDisk cfg b)) r s'

/-- The word that `write_raid0` tests says `DEAD` exactly when the disk of the block is dead, and,
unless it is dead, the block lies on the disk. -/
def TestsOwnDisk (cfg : Config) (s : Machine) (m : Raid) (b : ℕ) : Prop :=
  (m.word cfg.disks s.around (Raid.diskStateBase + (b / cfg.disks : ℕ)) = 1 ↔
    m.Dead (stripedDisk cfg b)) ∧
  (¬ m.Dead (stripedDisk cfg b) → cfg.OnDisk (stripedBlock cfg b))

/-- Accesses, failures and repairs. -/
def Call.isDiskCall : Call → Bool
  | .readRaid _ _ | .writeRaid _ _ | .diskFailRaid _ | .diskRepairedRaid _ => true
  | _ => false

/-! ### Access -/

theorem stripedDisk_le (hn : 1 ≤ cfg.disks) (b : ℕ) : stripedDisk cfg b ≤ cfg.disks :=
  Nat.mod_lt b hn

/-- Two blocks at the same place of the same disk are the same. -/
theorem striped_inj {b b' : ℕ} (hd : stripedDisk cfg b = stripedDisk cfg b')
    (hk : stripedBlock cfg b = stripedBlock cfg b') : b = b' := by
  unfold stripedDisk at hd
  unfold stripedBlock at hk
  have hmod : b % cfg.disks = b' % cfg.disks := by omega
  have hdiv : b / cfg.disks = b' / cfg.disks := by omega
  rw [← Nat.div_add_mod b cfg.disks, ← Nat.div_add_mod b' cfg.disks, hmod, hdiv]

/-- **All that `read_raid0` can do.** -/
theorem returns_readRaid0 (hn : 1 ≤ cfg.disks) (hm : s.raidMetadata = some m)
    (hnum : m.numOfDisks = cfg.disks) {v : ℤ × Block} :
    Returns (readRaid0 cfg b buf) s v s' ↔
      (m.Dead (stripedDisk cfg b) ∧ v = (-1, buf) ∧ s' = s) ∨
      (¬ m.Dead (stripedDisk cfg b) ∧ cfg.OnDisk (stripedBlock cfg b) ∧
        v = (0, (s.disk (stripedDisk cfg b) (2 * stripedBlock cfg b),
          s.disk (stripedDisk cfg b) (2 * stripedBlock cfg b + 1))) ∧ s' = s) := by
  have hle := stripedDisk_le hn b
  have hdiv : Returns (divisor m.numOfDisks) s () s := returns_divisor.2 ⟨by omega, rfl⟩
  have htest : Returns (dead cfg ((stripedDisk cfg b : ℕ) - 1)) s
      (decide (m.Dead (stripedDisk cfg b))) s :=
    (returns_dead_disk (Nat.le_add_left 1 _) hle).2 ⟨rfl, m, hm, rfl⟩
  have haddr : readRaid0Addr m.numOfDisks b = (stripedDisk cfg b, stripedBlock cfg b) := by
    rw [hnum]
    rfl
  rw [readRaid0, (metadata_returns hm).bind_iff, hdiv.bind_iff, haddr, htest.bind_iff,
    returns_ite, decide_eq_true_iff, returns_pure]
  refine or_congr Iff.rfl (and_congr_right fun _ => ?_)
  rw [returns_bind]
  constructor
  · rintro ⟨x, s₁, hread, hpure⟩
    obtain ⟨-, hk, rfl, rfl⟩ := returns_readBlock.1 hread
    obtain ⟨rfl, rfl⟩ := returns_pure.1 hpure
    exact ⟨hk, rfl, rfl⟩
  · rintro ⟨hk, rfl, rfl⟩
    refine ⟨_, s', returns_readBlock.2 ⟨⟨?_, by omega⟩, hk, rfl, rfl⟩, returns_pure.2 ⟨rfl, rfl⟩⟩
    exact Int.ofNat_le.2 (Nat.le_add_left 1 _)

/-- **All that `write_raid0` can do.** -/
theorem returns_writeRaid0 (hn : 1 ≤ cfg.disks) (hm : s.raidMetadata = some m)
    (hnum : m.numOfDisks = cfg.disks) {v : ℤ × Block} :
    Returns (writeRaid0 cfg b buf) s v s' ↔
      (m.word cfg.disks s.around (Raid.diskStateBase + (b / cfg.disks : ℕ)) = 1 ∧ v = (-1, buf) ∧
        s' = s) ∨
      (m.word cfg.disks s.around (Raid.diskStateBase + (b / cfg.disks : ℕ)) ≠ 1 ∧
        cfg.OnDisk (stripedBlock cfg b) ∧ v = (0, buf) ∧
        s' = s.setBlock (stripedDisk cfg b) (stripedBlock cfg b) buf) := by
  have hle := stripedDisk_le hn b
  have hdiv : Returns (divisor m.numOfDisks) s () s := returns_divisor.2 ⟨by omega, rfl⟩
  have hindex : ((stripedBlock cfg b : ℕ) : ℤ) - 1 = (b / cfg.disks : ℕ) := by
    unfold stripedBlock
    omega
  have htest : Returns (dead cfg ((stripedBlock cfg b : ℕ) - 1)) s
      (decide (m.word cfg.disks s.around (Raid.diskStateBase + (b / cfg.disks : ℕ)) = 1)) s := by
    rw [hindex]
    exact returns_dead.2 ⟨rfl, m, hm, rfl⟩
  have haddr : writeRaid0Addr m.numOfDisks b = (stripedDisk cfg b, stripedBlock cfg b) := by
    rw [hnum]
    rfl
  rw [writeRaid0, (metadata_returns hm).bind_iff, hdiv.bind_iff, haddr, htest.bind_iff,
    returns_ite, decide_eq_true_iff, returns_pure]
  refine or_congr Iff.rfl (and_congr_right fun _ => ?_)
  rw [returns_bind]
  constructor
  · rintro ⟨x, s₁, hwrite, hpure⟩
    obtain ⟨-, hk, rfl⟩ := returns_writeBlock.1 hwrite
    obtain ⟨rfl, rfl⟩ := returns_pure.1 hpure
    exact ⟨hk, rfl, rfl⟩
  · rintro ⟨hk, rfl, rfl⟩
    refine ⟨(), _, returns_writeBlock.2 ⟨⟨?_, by omega⟩, hk, rfl⟩, returns_pure.2 ⟨rfl, rfl⟩⟩
    exact Int.ofNat_le.2 (Nat.le_add_left 1 _)

theorem raid0_ne_other (v : ℕ) : RaidType.RAID0 ≠ .other v := by
  intro h
  cases h

section Dispatch

variable (hm : s.raidMetadata = some m) (hs : StripedMeta cfg m)
  (hb : m.Accepts b)

include hm hs hb

theorem returns_exec_readRaid_striped : Returns (exec cfg (.readRaid b (some buf))) s r s' ↔
    ∃ v, Returns (readRaid0 cfg b buf) s v s' ∧ r = { code := v.1, data := some v.2 } := by
  simp only [returns_exec_readRaid, returns_readRaid_type hm hb (hs.type ▸ raid0_ne_other), hs.type,
    exists_reply_iff]
  rfl

theorem returns_exec_writeRaid_striped : Returns (exec cfg (.writeRaid b (some buf))) s r s' ↔
    ∃ v, Returns (writeRaid0 cfg b buf) s v s' ∧ r = { code := v.1, data := some v.2 } := by
  simp only [returns_exec_writeRaid, returns_writeRaid_type hm hb (hs.type ▸ raid0_ne_other),
    hs.type, exists_reply_iff]
  rfl

end Dispatch

/-! ### Runs -/

/-- The blocks hold the latest writes that succeeded. -/
def HoldsLatestOk (cfg : Config) (l : List (Call × Reply)) (s : Machine) : Prop :=
  ∀ b data, latestOk l b = some data →
    data = (s.disk (stripedDisk cfg b) (2 * stripedBlock cfg b),
      s.disk (stripedDisk cfg b) (2 * stripedBlock cfg b + 1))

/-- What holds along a run. -/
def StripedInv (cfg : Config) (l : List (Call × Reply)) (s : Machine) : Prop :=
  ∃ m, s.raidMetadata = some m ∧ StripedMeta cfg m ∧ HoldsLatestOk cfg l s

/-- Saving the metadata touches none of the blocks of the array. -/
theorem HoldsLatestOk.saved {live : ℕ → Prop} {l' : List (Call × Reply)}
    (hl : HoldsLatestOk cfg l s) (hlog : ∀ b, latestOk l' b = latestOk l b)
    (hsaved : Saved cfg live m s s') : HoldsLatestOk cfg l' s' := by
  intro b data hdata
  have hpos : 1 ≤ stripedBlock cfg b := Nat.le_add_left 1 _
  rw [hsaved.disk _ _ (by omega), hsaved.disk _ _ (by omega)]
  exact hl b data (by rwa [hlog] at hdata)

/-- A write that succeeded. -/
theorem HoldsLatestOk.written (hl : HoldsLatestOk cfg l s) (b : ℕ) (buf : Block) (r : Reply)
    (hr : r.code = 0) : HoldsLatestOk cfg ((.writeRaid b (some buf), r) :: l)
      (s.setBlock (stripedDisk cfg b) (stripedBlock cfg b) buf) := by
  intro b' data hdata
  rw [setBlock_disk_fst, setBlock_disk_snd]
  simp only [latestOk, hr, and_true] at hdata
  by_cases hbb : b = b'
  · subst hbb
    rw [if_pos rfl] at hdata
    rw [if_pos ⟨rfl, rfl⟩, if_pos ⟨rfl, rfl⟩]
    exact (Option.some_inj.1 hdata).symm
  · have hother : ¬ (stripedDisk cfg b' = stripedDisk cfg b ∧
        stripedBlock cfg b' = stripedBlock cfg b) := fun h => hbb (striped_inj h.1 h.2).symm
    rw [if_neg (by omega)] at hdata
    rw [if_neg hother, if_neg hother]
    exact hl b' data hdata

theorem latestOk_of_code {x : ℤ} {data : Option Block} (hr : r.code ≠ 0) :
    latestOk ((.writeRaid x data, r) :: l) b = latestOk l b := by
  cases data with
  | none => rfl
  | some data => simp [latestOk, hr]

/-- One call of a run. -/
theorem StripedInv.step (hn : 1 ≤ cfg.disks) (hI : StripedInv cfg l s) (hc : c.isDiskCall = true)
    (h : Returns (exec cfg c) s r s') : StripedInv cfg ((c, r) :: l) s' := by
  obtain ⟨m, hm, hs, hl⟩ := hI
  cases c with
  | readRaid x data =>
    have hsame : s' = s := by
      rcases accepted_or_rejected s x data with ⟨m₁, buf, b, hm₁, rfl, rfl, hb⟩ | hrej
      · obtain rfl := Option.mem_unique hm hm₁
        obtain ⟨v, hv, -⟩ := (returns_exec_readRaid_striped hm hs hb).1 h
        rcases (returns_readRaid0 hn hm hs.numOfDisks).1 hv with ⟨-, -, hs'⟩ | ⟨-, -, -, hs'⟩
        · exact hs'
        · exact hs'
      · obtain ⟨v, hv, -⟩ := returns_exec_readRaid.1 h
        exact ((accessRaid_rejected hrej).1 hv).2
    subst hsame
    exact ⟨m, hm, hs, hl⟩
  | writeRaid x data =>
    rcases accepted_or_rejected s x data with ⟨m₁, buf, b, hm₁, rfl, rfl, hb⟩ | hrej
    · obtain rfl := Option.mem_unique hm hm₁
      obtain ⟨v, hv, rfl⟩ := (returns_exec_writeRaid_striped hm hs hb).1 h
      rcases (returns_writeRaid0 hn hm hs.numOfDisks).1 hv with
        ⟨-, rfl, rfl⟩ | ⟨-, -, rfl, rfl⟩
      · refine ⟨m, hm, hs, fun b data hdata => hl b data ?_⟩
        rwa [latestOk_of_code (show (-1 : ℤ) ≠ 0 by decide)] at hdata
      · exact ⟨m, hm, hs, hl.written b buf _ rfl⟩
    · obtain ⟨v, hv, rfl⟩ := returns_exec_writeRaid.1 h
      obtain ⟨rfl, rfl⟩ := (accessRaid_rejected hrej).1 hv
      refine ⟨m, hm, hs, fun b data hdata => hl b data ?_⟩
      rwa [latestOk_of_code (show (-1 : ℤ) ≠ 0 by decide)] at hdata
  | diskFailRaid x =>
    rcases diskFailRaid_idle_or s x with ⟨_, hidle⟩ | ⟨m₁, d, ha, hd⟩
    · obtain ⟨-, rfl⟩ := h.unique hidle
      exact ⟨m, hm, hs, hl⟩
    · obtain rfl := Option.mem_unique hm ha.1
      obtain ⟨v, hfail, -⟩ := returns_exec_diskFailRaid.1 h
      obtain ⟨-, hsaved⟩ := diskFailRaid_plain ha (by rw [hs.type]; rfl) hd hfail
      exact ⟨_, hsaved.raidMetadata, { hs with }, hl.saved (fun _ => rfl) hsaved⟩
  | diskRepairedRaid x =>
    rcases diskRepairedRaid_idle_or s x with ⟨_, hidle⟩ | ⟨m₁, d, ha, hd⟩
    · obtain ⟨-, rfl⟩ := h.unique hidle
      exact ⟨m, hm, hs, hl⟩
    · obtain rfl := Option.mem_unique hm ha.1
      obtain ⟨v, hrep, -⟩ := returns_exec_diskRepairedRaid.1 h
      obtain ⟨-, hsaved⟩ := diskRepairedRaid_plain ha (by rw [hs.type]; rfl) hd hrep
      exact ⟨_, hsaved.raidMetadata, { hs with }, hl.saved (fun _ => rfl) hsaved⟩
  | _ => cases hc

/-- The array after `init_raid`. -/
theorem stripedInv_start (hn : 1 ≤ cfg.disks) {s₀ : Machine}
    (h : Returns (exec cfg (.initRaid RaidType.RAID0.code)) s₀ r s) : StripedInv cfg [] s := by
  obtain ⟨m, -, hsaved⟩ := exec_initRaid_cases hn h
  exact ⟨_, hsaved.raidMetadata, ⟨rfl, rfl, rfl, rfl⟩, fun b data hdata => nomatch hdata⟩

/-! ### Failing exactly when the disk is dead -/

section Fails

variable (hn : 1 ≤ cfg.disks) (hm : s.raidMetadata = some m) (hs : StripedMeta cfg m)
  (hb : m.Accepts b)

include hn hm hs hb

theorem readFailsIf_iff (hl : HoldsLatestOk cfg l s) :
    (∃ r s', FailsIf cfg s (.readRaid b (some buf)) buf (m.Dead (stripedDisk cfg b)) r s' ∧
      (r.code = 0 → ∀ data, latestOk l b = some data → r.data = some data)) ↔
    (¬ m.Dead (stripedDisk cfg b) → cfg.OnDisk (stripedBlock cfg b)) := by
  constructor
  · rintro ⟨r, s', ⟨hret, hdead, hlive, -⟩, -⟩ hd
    obtain ⟨v, hv, rfl⟩ := (returns_exec_readRaid_striped hm hs hb).1 hret
    rcases (returns_readRaid0 hn hm hs.numOfDisks).1 hv with ⟨hd', -⟩ | ⟨-, hk, -⟩
    · exact absurd hd' hd
    · exact hk
  · intro hk
    by_cases hd : m.Dead (stripedDisk cfg b)
    · have hret : Returns (exec cfg (.readRaid b (some buf))) s { code := -1, data := some buf }
        s :=
        (returns_exec_readRaid_striped hm hs hb).2
          ⟨(-1, buf), (returns_readRaid0 hn hm hs.numOfDisks).2 (.inl ⟨hd, rfl, rfl⟩), rfl⟩
      exact ⟨_, s, ⟨hret, fun _ => rfl, fun hlive => absurd hd hlive, fun _ => ⟨rfl, rfl⟩⟩,
        fun hcode => absurd hcode (show (-1 : ℤ) ≠ 0 by decide)⟩
    · have hread : Returns (readRaid0 cfg b buf) s _ s :=
        (returns_readRaid0 hn hm hs.numOfDisks).2 (.inr ⟨hd, hk hd, rfl, rfl⟩)
      refine ⟨_, s, ⟨(returns_exec_readRaid_striped hm hs hb).2 ⟨_, hread, rfl⟩, fun hdead =>
        absurd hdead hd, fun _ => rfl, fun hcode => absurd hcode (show (0 : ℤ) ≠ -1 by decide)⟩,
          fun _ data hdata => ?_⟩
      exact congrArg some (hl b data hdata).symm

theorem writeFailsIf_iff :
    (∃ r s', FailsIf cfg s (.writeRaid b (some buf)) buf (m.Dead (stripedDisk cfg b)) r s') ↔
      TestsOwnDisk cfg s m b := by
  constructor
  · rintro ⟨r, s', hret, hdead, hlive, -⟩
    obtain ⟨v, hv, rfl⟩ := (returns_exec_writeRaid_striped hm hs hb).1 hret
    rcases (returns_writeRaid0 hn hm hs.numOfDisks).1 hv with ⟨hw, rfl, -⟩ | ⟨hw, hk, rfl, -⟩
    · have hd : m.Dead (stripedDisk cfg b) := by
        by_contra hd
        exact absurd (hlive hd) (show (-1 : ℤ) ≠ 0 by decide)
      exact ⟨iff_of_true hw hd, fun h => absurd hd h⟩
    · have hd : ¬ m.Dead (stripedDisk cfg b) :=
        fun hd => absurd (hdead hd) (show (0 : ℤ) ≠ -1 by decide)
      exact ⟨iff_of_false hw hd, fun _ => hk⟩
  · rintro ⟨hword, hk⟩
    by_cases hd : m.Dead (stripedDisk cfg b)
    · have hwrite : Returns (writeRaid0 cfg b buf) s (-1, buf) s :=
        (returns_writeRaid0 hn hm hs.numOfDisks).2 (.inl ⟨hword.2 hd, rfl, rfl⟩)
      exact ⟨_, s, (returns_exec_writeRaid_striped hm hs hb).2 ⟨(-1, buf), hwrite, rfl⟩, fun _ =>
        rfl, fun hlive => absurd hd hlive, fun _ => ⟨rfl, rfl⟩⟩
    · have hw := fun h => hd (hword.1 h)
      have hwrite : Returns (writeRaid0 cfg b buf) s (0, buf) _ :=
        (returns_writeRaid0 hn hm hs.numOfDisks).2 (.inr ⟨hw, hk hd, rfl, rfl⟩)
      exact ⟨_, _, (returns_exec_writeRaid_striped hm hs hb).2 ⟨(0, buf), hwrite, rfl⟩, fun hdead =>
        absurd hdead hd, fun _ => rfl, fun hcode => absurd hcode (show (0 : ℤ) ≠ -1 by decide)⟩

end Fails

/-- **Accesses to a block of a `RAID0` array fail exactly when its disk is dead**, if and only if
the word that `write_raid0` tests says so and the block lies on the disk.  This is in every state
that accesses, failures and repairs lead to. -/
theorem fails_exactly_iff (hn : 1 ≤ cfg.disks) {s₀ s₁ : Machine} {r₁ : Reply}
    (hinit : Returns (exec cfg (.initRaid RaidType.RAID0.code)) s₀ r₁ s₁)
    (hr : LogReach (exec cfg) (fun _ c => c.isDiskCall = true) s₁ l s) :
    ∃ m, s.raidMetadata = some m ∧ ∀ b buf, m.Accepts (b : ℕ) →
      (FailsExactly cfg l s m b buf ↔ TestsOwnDisk cfg s m b) := by
  have hI : StripedInv cfg l s := by
    refine hr.inv (StripedInv cfg) (stripedInv_start hn hinit) ?_
    intro l s c r s' hI hc hret
    exact hI.step hn hc hret
  obtain ⟨m, hm, hs, hl⟩ := hI
  refine ⟨m, hm, fun b buf hb => ?_⟩
  rw [FailsExactly, readFailsIf_iff hn hm hs hb hl, writeFailsIf_iff hn hm hs hb]
  exact ⟨fun h => h.2, fun h => ⟨h.2, h⟩⟩

instance (cfg : Config) (s : Machine) (m : Raid) (b : ℕ) : Decidable (TestsOwnDisk cfg s m b) :=
  inferInstanceAs (Decidable ((_ ↔ _) ∧ (_ → _)))

/-- The machine after the failure of disk `2` of a new array of two disks. -/
def lostDisk : Machine :=
  Reach.after (exec (smallConfig 2)) [.initRaid 0, .diskFailRaid 2] blankMachine

theorem lostDisk_reached : ∃ r₁ s₁ l m,
    Returns (exec (smallConfig 2) (.initRaid RaidType.RAID0.code)) blankMachine r₁ s₁ ∧
    LogReach (exec (smallConfig 2)) (fun _ c => c.isDiskCall = true) s₁ l lostDisk ∧
    lostDisk.raidMetadata = some m ∧
      (m.Accepts (0 : ℕ) ∧ TestsOwnDisk (smallConfig 2) lostDisk m 0) ∧
    m.Accepts (1 : ℕ) ∧ ¬ TestsOwnDisk (smallConfig 2) lostDisk m 1 := by
  obtain ⟨r₁, hinit⟩ := Reach.returns_of_toBool
    (x := exec (smallConfig 2) (.initRaid RaidType.RAID0.code)) (s := blankMachine)
    (by decide +kernel)
  have hreach : Reach (exec (smallConfig 2)) (fun _ _ c => c.isDiskCall = true)
      (exec (smallConfig 2) (.initRaid RaidType.RAID0.code) blankMachine).state
      [.diskFailRaid 2].reverse lostDisk := .of_allows_start (by decide +kernel)
  obtain ⟨l, hl⟩ := LogReach.of_reach hreach
  have hdisks : ∃ m ∈ lostDisk.raidMetadata,
      (m.Accepts (0 : ℕ) ∧ TestsOwnDisk (smallConfig 2) lostDisk m 0) ∧
        m.Accepts (1 : ℕ) ∧ ¬ TestsOwnDisk (smallConfig 2) lostDisk m 1 := by
    decide +kernel
  obtain ⟨m, hm, htests⟩ := hdisks
  exact ⟨r₁, _, l, m, hinit, hl, hm, htests⟩

/-- Block `0` is on disk `1`, whose state a write tests; block `1` is on disk `2`. -/
theorem fails_exactly_iff_two : ∃ l m, lostDisk.raidMetadata = some m ∧
    FailsExactly (smallConfig 2) l lostDisk m 0 (bytes 7) ∧
    ¬ FailsExactly (smallConfig 2) l lostDisk m 1 (bytes 7) := by
  obtain ⟨r₁, s₁, l, m, hinit, hl, hm, ⟨hb₀, htests⟩, hb₁, hnot⟩ := lostDisk_reached
  obtain ⟨m₁, hm₁, hiff⟩ := fails_exactly_iff (by decide) hinit hl
  obtain rfl := Option.mem_unique hm hm₁
  exact ⟨l, m, hm, (hiff 0 (bytes 7) hb₀).2 htests, fun h => hnot ((hiff 1 (bytes 7) hb₁).1 h)⟩

/-- **A write to a dead disk succeeds**: after the failure of disk `2` a write to block `1`, which
is on disk `2`, tests the state of disk `1`. -/
theorem write_to_dead_disk_succeeds :
    ¬ ∀ (s₀ s₁ s : Machine) (r₁ : Reply) (l : List (Call × Reply)),
    Returns (exec (smallConfig 2) (.initRaid RaidType.RAID0.code)) s₀ r₁ s₁ →
    LogReach (exec (smallConfig 2)) (fun _ c => c.isDiskCall = true) s₁ l s →
    ∀ m, s.raidMetadata = some m → ∀ b buf, m.Accepts (b : ℕ) →
      FailsExactly (smallConfig 2) l s m b buf := by
  intro hall
  obtain ⟨r₁, s₁, l, m, hinit, hl, hm, -, hb, hnot⟩ := lostDisk_reached
  have hn : 1 ≤ (smallConfig 2).disks := by decide
  have hI : StripedInv (smallConfig 2) l lostDisk := by
    refine hl.inv (StripedInv _) (stripedInv_start hn hinit) ?_
    intro l s c r s' hI hc hret
    exact hI.step hn hc hret
  obtain ⟨m₁, hm₁, hs, -⟩ := hI
  obtain rfl := Option.mem_unique hm hm₁
  exact hnot ((writeFailsIf_iff hn hm hs hb).1
    (hall _ s₁ lostDisk r₁ l hinit hl m hm 1 (bytes 7) hb).2)

end RaidSystem
