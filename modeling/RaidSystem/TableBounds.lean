/-
**Where the tables are indexed within their bounds.**

The source indexes its tables without checks, by numbers that come from arguments, from the role
tables, and from metadata that were read back from disk.  This module says which calls stay within
the bounds, and shows that nothing else has to be asked for.

What keeps the indices in bounds is that the metadata are sound (`RaidSystem/MetadataSound.lean`).
The calls that leave the bounds are those that use a `-1` as the number of a disk, and five more:

* `init_raid` with a type that does not exist, after which accesses index `raid_rw` by it;
* a write of type `RAID0`, which indexes `disk_state` by the block number;
* a failure that puts the reserve disk to use, for the disk in the middle of an odd number;
* a failure of a disk without a role, for which `copy_disks` is indexed by `-1`;
* loading the metadata, when the search for a copy reaches the last disk.

Main definitions:

* `Access.InBounds` — the access stays within its table;
* `SafeCall` — the conditions on the calls.

Main results:

* `stays_in_bounds` — **runs of safe calls stay within the tables**;
* `raid0_write_leaves_table` — a run that does not.
-/

import RaidSystem.MetadataSound

set_option autoImplicit false

namespace RaidSystem

open Prog

variable {cfg : Config} {s s' : Machine} {m m' : Raid} {b k d : ℕ} {buf : Block}

/-! ### Definitions -/

/-- The access stays within its table, divides by a number other than zero, or is a transfer of an
existing disk. -/
def Access.InBounds (cfg : Config) : Access → Prop
  | .raidRw index => index < 10
  | .diskState index => 0 ≤ index ∧ index < cfg.disks
  | .dataDisks index => 0 ≤ index ∧ index < (cfg.disks / 2 : ℕ)
  | .copyDisks index => 0 ≤ index ∧ index < (cfg.disks / 2 : ℕ)
  | .divisor value => value ≠ 0
  | .read diskn _ => 1 ≤ diskn ∧ diskn ≤ cfg.disks
  | .write diskn _ => 1 ≤ diskn ∧ diskn ≤ cfg.disks

/-- If the metadata have to be loaded, some copy other than that of the last disk stops the
search. -/
def SafeLoad (cfg : Config) (s : Machine) : Prop :=
  s.ready = false → ∃ i, 1 ≤ i ∧ i < cfg.disks ∧ (s.super i).diskState i ≠ .DEAD

/-- A read of a mirrored array finds a primary, and a copy if the primary is dead. -/
def SafeRead (cfg : Config) (m : Raid) (b : ℕ) : Prop :=
  m.type.plain = false →
    m.dataDisks (b % (cfg.disks / 2)) ≠ -1 ∧
      (m.Dead (m.dataDisks (b % (cfg.disks / 2))).toNat → m.copyDisks (b % (cfg.disks / 2)) ≠ -1)

/-- A write of a mirrored array finds a primary and a copy; one of type `RAID0` is to a block whose
physical number is one of a disk. -/
def SafeWrite (cfg : Config) (m : Raid) (b : ℕ) : Prop :=
  (m.type = .RAID0 → b < cfg.disks * cfg.disks) ∧
    (m.type.plain = false →
      m.dataDisks (b % (cfg.disks / 2)) ≠ -1 ∧ m.copyDisks (b % (cfg.disks / 2)) ≠ -1)

/-- A disk of a mirrored array that fails is not the one in the middle if there is a reserve disk,
and has a role if there is none. -/
def SafeFail (cfg : Config) (m : Raid) (d : ℕ) : Prop :=
  m.type.plain = false →
    (m.reserveDisk ≠ -1 ∧ m.reserveDisk ≠ 0 → 2 * d ≠ cfg.disks + 1) ∧
      (¬ (m.reserveDisk ≠ -1 ∧ m.reserveDisk ≠ 0) →
        ∃ j < cfg.disks / 2, m.dataDisks j = d ∨ m.copyDisks j = d)

/-- The conditions on the calls. -/
def SafeCall (cfg : Config) (s : Machine) : Call → Prop
  | .initRaid raid => (0 ≤ raid ∧ raid ≤ 4) ∧ SafeLoad cfg s
  | .infoRaid => SafeLoad cfg s
  | .readRaid blkn (some _) =>
    ∀ m, s.raidMetadata = some m → m.Accepts blkn → SafeRead cfg m blkn.toNat
  | .writeRaid blkn (some _) =>
    ∀ m, s.raidMetadata = some m → m.Accepts blkn → SafeWrite cfg m blkn.toNat
  | .diskFailRaid diskn => ∀ m d, Addresses cfg s diskn m d → ¬ m.Dead d → SafeFail cfg m d
  | _ => True

/-- In every run of calls that satisfy `ok`, on zero-filled disks, every call that satisfies `ok`
stays within the tables. -/
def StaysInBounds (cfg : Config) (ok : Machine → Call → Prop) : Prop :=
  ∀ s₀ h s c, s₀.Blank → Reach (exec cfg) (fun _ s c => ok s c) s₀ h s → ok s c →
    Traces (Access.InBounds cfg) (exec cfg c) s

/-! ### Mirrored access -/

section Mirror

variable {i : ℕ} (hm : s.raidMetadata = some m) (hR : RolesSound cfg m) (hi : i < cfg.disks / 2)

include hm hR hi

theorem inBounds_readMirror (hdata : m.dataDisks i ≠ -1)
    (hcopy : m.Dead (m.dataDisks i).toNat → m.copyDisks i ≠ -1) :
    Traces (Access.InBounds cfg) (readMirror cfg i k buf) s := by
  obtain ⟨h₁, h₂⟩ := (hR.data i hi).resolve_left hdata
  have hrow : 0 ≤ (i : ℤ) ∧ (i : ℤ) < (cfg.disks / 2 : ℕ) := ⟨by omega, by omega⟩
  -- the copy is used only if the primary is dead
  have hsnd : deadAt cfg s m (m.dataDisks i - 1) → 1 ≤ m.copyDisks i ∧
      m.copyDisks i ≤ cfg.disks := by
    intro hdead
    obtain ⟨d, hd⟩ : ∃ d : ℕ, m.dataDisks i = d := ⟨_, (Int.toNat_of_nonneg (by omega)).symm⟩
    rw [hd, deadAt_disk (by omega) (by omega)] at hdead
    rw [hd, Int.toNat_natCast] at hcopy
    exact (hR.copy i hi).resolve_left (hcopy hdead)
  refine traces_readMirror hm (dataDisks_returns hm hi) (copyDisks_returns hm hi) hrow hrow
    ⟨by omega, by omega⟩ (fun _ => ⟨h₁, h₂⟩) (fun hdead => ?_) (fun hdead _ => hsnd hdead)
  have := hsnd hdead
  exact ⟨by omega, by omega⟩

theorem inBounds_writeMirror (hdata : m.dataDisks i ≠ -1) (hcopy : m.copyDisks i ≠ -1) :
    Traces (Access.InBounds cfg) (writeMirror cfg i k buf) s := by
  obtain ⟨h₁, h₂⟩ := (hR.data i hi).resolve_left hdata
  obtain ⟨h₃, h₄⟩ := (hR.copy i hi).resolve_left hcopy
  have hrow : 0 ≤ (i : ℤ) ∧ (i : ℤ) < (cfg.disks / 2 : ℕ) := ⟨by omega, by omega⟩
  exact traces_writeMirror hm (dataDisks_returns hm hi) (copyDisks_returns hm hi) hrow hrow
    ⟨by omega, by omega⟩ (fun _ => ⟨h₁, h₂⟩) ⟨by omega, by omega⟩ fun _ => ⟨h₃, h₄⟩

end Mirror

/-! ### Access through the stripe cache -/

section Stripe

variable {q : ℤ} (hm : s.raidMetadata = some m) (hnum : m.numOfDisks ≤ cfg.disks) (h₁ : 1 ≤ d)
  (h₂ : d ≤ cfg.disks) (hq₀ : 0 ≤ q) (hq : q < cfg.disks)

include hm hnum hq₀ hq

theorem inBounds_cache : Traces (Access.InBounds cfg) (cache cfg k q) s := by
  refine traces_cache hm (fun d h₁ h₂ => ⟨⟨?_, ?_⟩, ?_, ?_⟩) ⟨hq₀, hq⟩ ⟨?_, ?_⟩ <;> omega

include h₁ h₂

theorem inBounds_readStripe : Traces (Access.InBounds cfg) (readStripe cfg d k q buf) s :=
  traces_readStripe hm ⟨by omega, by omega⟩ fun _ => inBounds_cache hm hnum hq₀ hq

theorem inBounds_writeStripe (hI : MetaSound cfg m) :
    Traces (Access.InBounds cfg) (writeStripe cfg d k q buf) s := by
  refine traces_writeStripe hm (fun hhit => ?_) (fun _ => ?_) ⟨by omega, by omega⟩
    ⟨by omega, by omega⟩
  · obtain ⟨hp₀, hp⟩ := hI.cached k hhit
    exact ⟨⟨hp₀, hp⟩, by omega, by omega⟩
  · exact ⟨inBounds_cache hm hnum hq₀ hq, ⟨hq₀, hq⟩, by omega, by omega⟩

end Stripe

/-! ### The access functions -/

section Functions

variable (hn : 2 ≤ cfg.disks) (hI : MetaSound cfg m) (hA : ArraySound cfg m)
  (hm : s.raidMetadata = some m)

include hn hA hm

theorem inBounds_accessFunction {f : Bodies}
    (hzero : m.type = .RAID0 → m.numOfDisks = cfg.disks → b % cfg.disks < cfg.disks →
      Traces (Access.InBounds cfg) (f.zero b buf) s)
    (hmirror : m.type.plain = false → b % (cfg.disks / 2) < cfg.disks / 2 →
      Traces (Access.InBounds cfg) (f.mirror (b % (cfg.disks / 2)) (b / (cfg.disks / 2) + 1) buf) s)
    (hstripe : ∀ d k (q : ℤ), m.numOfDisks ≤ cfg.disks → 1 ≤ d → d ≤ cfg.disks → 0 ≤ q →
      q < cfg.disks →
      Traces (Access.InBounds cfg) (f.stripe d k q buf) s) :
    Traces (Access.InBounds cfg) (accessFunction f m.type b buf) s := by
  have hcolumn : m.type.plain = false → Access.InBounds cfg (.divisor m.numOfDisks) ∧
      Traces (Access.InBounds cfg)
        (f.mirror (b % m.numOfDisks) (b / m.numOfDisks + 1) buf) s := by
    intro hplain
    have hpos : 0 < cfg.disks / 2 := Nat.div_pos hn (by decide)
    rw [hA.numOfDisks, numOfDisksOf_mirror hA.type hplain]
    exact ⟨hpos.ne', hmirror hplain (Nat.mod_lt b hpos)⟩
  cases ht : m.type with
  | RAID0 =>
    have hnum : m.numOfDisks = cfg.disks := by rw [hA.numOfDisks, ht]; rfl
    exact hzero ht hnum (Nat.mod_lt b (show 0 < cfg.disks by omega))
  | RAID1 =>
    obtain ⟨hdiv, hbody⟩ := hcolumn (by rw [ht]; rfl)
    exact traces_divided hm hdiv hbody
  | RAID0_1 =>
    obtain ⟨hdiv, hbody⟩ := hcolumn (by rw [ht]; rfl)
    exact traces_divided hm hdiv hbody
  | RAID4 =>
    obtain ⟨hnum, hd, hq⟩ := hA.raid4 hn ht b
    have hdiv : m.numOfDisks ≠ 0 := by omega
    exact traces_refusing hm (traces_divisor_bind hdiv
      (hstripe _ _ _ (by omega) (Nat.le_add_left 1 _) hd (by omega) (by omega)))
  | RAID5 =>
    obtain ⟨hnum, hd, hp⟩ := hA.raid5 hn ht b
    have hdiv : m.numOfDisks - 1 ≠ 0 := by omega
    have hdiv' : m.numOfDisks ≠ 0 := by omega
    have hq₀ : 0 ≤ ((readRaid5Addr m.numOfDisks b).2.1 : ℤ) - 1 := by omega
    have hq : ((readRaid5Addr m.numOfDisks b).2.1 : ℤ) - 1 < cfg.disks := by omega
    exact traces_refusing hm (traces_divisor_bind hdiv (traces_divisor_bind hdiv'
      (hstripe _ _ _ (by omega) hd.1 hd.2 hq₀ hq)))
  | other v => exact absurd ht (hA.type v)

theorem inBounds_readFunction (hsafe : SafeRead cfg m b) :
    Traces (Access.InBounds cfg) (readFunction cfg m.type b buf) s := by
  rw [readFunction_eq]
  refine inBounds_accessFunction hn hA hm (fun _ hnum hlt => ?_) (fun hplain hi => ?_)
    fun d k q hnum h₁ h₂ hq₀ hq => inBounds_readStripe hm hnum h₁ h₂ hq₀ hq
  · refine traces_readRaid0 hm ?_ ?_ ?_ <;> rw [hnum]
    · exact Nat.ne_of_gt (by omega)
    · exact ⟨by omega, by omega⟩
    · exact ⟨by omega, by omega⟩
  · obtain ⟨hdata, hcopy⟩ := hsafe hplain
    exact inBounds_readMirror hm (hA.roles hplain) hi hdata hcopy

include hI

theorem inBounds_writeFunction (hsafe : SafeWrite cfg m b) :
    Traces (Access.InBounds cfg) (writeFunction cfg m.type b buf) s := by
  rw [writeFunction_eq]
  refine inBounds_accessFunction hn hA hm (fun ht hnum hlt => ?_) (fun hplain hi => ?_)
    fun d k q hnum h₁ h₂ hq₀ hq => inBounds_writeStripe hm hnum h₁ h₂ hq₀ hq hI
  · -- the state is tested at the number of the block
    have hblock : b / cfg.disks < cfg.disks :=
      (Nat.div_lt_iff_lt_mul (by omega)).2 (hsafe.1 ht)
    refine traces_writeRaid0 hm ?_ ?_ ?_ <;> rw [hnum]
    · exact Nat.ne_of_gt (by omega)
    · exact ⟨Int.natCast_nonneg _, Int.ofNat_lt.2 hblock⟩
    · exact ⟨by omega, by omega⟩
  · obtain ⟨hdata, hcopy⟩ := hsafe.2 hplain
    exact inBounds_writeMirror hm (hA.roles hplain) hi hdata hcopy

end Functions

theorem code_lt_five {t : RaidType} (ht : ∀ v, t ≠ .other v) : t.code < 5 := by
  cases t with
  | other v => exact absurd rfl (ht v)
  | _ => decide

/-! ### Loading and saving -/

theorem inBounds_fetch (hn : 2 ≤ cfg.disks) (hsafe : SafeLoad cfg s) (hready : s.ready = false)
    (j : ℕ) (h₁ : 1 ≤ j) (h₂ : j ≤ fetchSource cfg.disks s.super) :
    Access.InBounds cfg (.read j 0) ∧ Access.InBounds cfg (.diskState j) := by
  obtain ⟨i, hi₁, hi₂, hstop⟩ := hsafe hready
  obtain ⟨-, hle, hpassed, -⟩ := stopsAt_fetchSource (show 1 ≤ cfg.disks by omega) s.super
  -- the search does not pass disk `i`
  have hsource : fetchSource cfg.disks s.super ≤ i := by
    by_contra hlt
    exact hstop (hpassed i hi₁ (by omega))
  exact ⟨⟨by omega, by omega⟩, by omega, by omega⟩

theorem inBounds_save (h₁ : 1 ≤ d) (h₂ : d ≤ cfg.disks) :
    Access.InBounds cfg (.diskState (d - 1)) ∧ Access.InBounds cfg (.write d 0) :=
  ⟨⟨by omega, by omega⟩, by omega, by omega⟩

theorem inBounds_writeback (hs : s.raidMetadata.isSome) :
    Traces (Access.InBounds cfg) (writeback cfg) s := by
  obtain ⟨m, hm⟩ := Option.isSome_iff_exists.1 hs
  exact traces_writeback hm (fun d h₁ h₂ => (inBounds_save h₁ h₂).1)
    fun d h₁ h₂ _ => (inBounds_save h₁ h₂).2

/-! ### Failure and repair -/

section Roles

variable (hA : ArraySound cfg m) (hm : s.raidMetadata = some m)

include hA hm

/-- A failure in a table of sound metadata. -/
theorem inBounds_failRoles (h₁ : 1 ≤ d) (h₂ : d ≤ cfg.disks) (hsafe : SafeFail cfg m d) :
    Traces (Access.InBounds cfg) (failRoles cfg d) s := by
  have hnum : m.type.plain = false → m.numOfDisks = cfg.disks / 2 := fun hplain => by
    rw [hA.numOfDisks, numOfDisksOf_mirror hA.type hplain]
  refine traces_failRoles hm (fun hplain hres₁ hres₂ => ?_) (fun hplain hres => ?_)
  · have hmiddle := (hsafe hplain).1 ⟨hres₁, hres₂⟩
    have hnum := hnum hplain
    refine traces_failWithReserve (fun hle => ⟨⟨?_, ?_⟩, ?_, ?_⟩) (fun hgt => ⟨?_, ?_⟩) <;> omega
  · obtain ⟨j, hj, hrole⟩ := (hsafe hplain).2 hres
    have hnum := hnum hplain
    refine traces_failWithoutReserve (fun i hi => ⟨⟨?_, ?_⟩, ?_, ?_⟩) (fun hdata hcopy => ?_)
    · omega
    · omega
    · omega
    · omega
    · rcases hrole with hrole | hrole
      · exact absurd (hrole ▸ dataDisks_returns hm hj) (hdata j (by omega))
      · exact absurd (hrole ▸ copyDisks_returns hm hj) (hcopy j (by omega))

theorem inBounds_repairRoles {x : ℤ} :
    Traces (Access.InBounds cfg) (repairRoles cfg x) s := by
  refine traces_repairRoles hm fun hplain j hj => ?_
  rw [hA.numOfDisks, numOfDisksOf_mirror hA.type hplain] at hj
  exact ⟨⟨by omega, by omega⟩, by omega, by omega⟩

end Roles

/-! ### Runs -/

/-- **A safe call stays within the tables.** -/
theorem inBounds_exec (hn : 2 ≤ cfg.disks) (hI : AllMeta cfg (MetaSound cfg) s) {c : Call}
    (hsafe : SafeCall cfg s c) : Traces (Access.InBounds cfg) (exec cfg c) s := by
  have hn₁ : 1 ≤ cfg.disks := Nat.le_of_succ_le hn
  cases c with
  | initRaid x =>
    refine traces_exec_initRaid (traces_initRaid hn₁ _ (inBounds_fetch hn hsafe.2) ?_ ?_)
    · intro i hi
      exact ⟨⟨by omega, by omega⟩, by omega, by omega⟩
    · intro d h₁ h₂
      exact (inBounds_save h₁ h₂).2
  | readRaid x data =>
    rcases accepted_or_rejected s x data with ⟨m, buf, b, hm, rfl, rfl, hb⟩ | hrej
    · have hA := (hI.memory m hm).array hb.1
      have hcode := code_lt_five hA.type
      have hindex : m.type.code * 2 < 10 := by omega
      exact traces_exec_readRaid (traces_readRaid hm hb rfl hA.type hindex
        (inBounds_readFunction hn hA hm (hsafe m hm hb)))
    · exact traces_exec_readRaid (traces_accessRaid_rejected hrej)
  | writeRaid x data =>
    rcases accepted_or_rejected s x data with ⟨m, buf, b, hm, rfl, rfl, hb⟩ | hrej
    · have hA := (hI.memory m hm).array hb.1
      have hcode := code_lt_five hA.type
      have hindex : m.type.code * 2 + 1 < 10 := by omega
      exact traces_exec_writeRaid (traces_writeRaid hm hb rfl hA.type hindex
        (inBounds_writeFunction hn (hI.memory m hm) hA hm (hsafe m hm hb)))
    · exact traces_exec_writeRaid (traces_accessRaid_rejected hrej)
  | infoRaid =>
    exact traces_exec_infoRaid (traces_infoRaid (traces_fetch hn₁ (inBounds_fetch hn hsafe)))
  | diskFailRaid x =>
    refine traces_exec_diskFailRaid ?_
    rcases Classical.em (∃ m d, Addresses cfg s x m d) with ⟨m, d, ha⟩ | ha
    · have hS := (hI.memory m ha.1).markDead d
      obtain ⟨hm, hinit, -, h₁, h₂⟩ := id ha
      refine traces_diskFailRaid ha (inBounds_save h₁ h₂).1 (fun hd => ?_) (fun hd s₁ hroles => ?_)
      · exact inBounds_failRoles (hS.array hinit) rfl h₁ h₂ (hsafe m d ha hd)
      · exact inBounds_writeback (Prod.mk.inj (roleFrame_super.failRoles _ _ _ hroles)).2
    · exact traces_diskFailRaid_refused ha
  | diskRepairedRaid x =>
    refine traces_exec_diskRepairedRaid ?_
    rcases Classical.em (∃ m d, Addresses cfg s x m d) with ⟨m, d, ha⟩ | ha
    · have hS := (hI.memory m ha.1).markRepaired d
      obtain ⟨hm, hinit, -, h₁, h₂⟩ := id ha
      refine traces_diskRepairedRaid ha (inBounds_save h₁ h₂).1 (fun _ => ?_)
        (fun _ s₁ hroles => ?_)
      · exact inBounds_repairRoles (hS.array hinit) rfl
      · exact inBounds_writeback (Prod.mk.inj (roleFrame_super.repairRoles _ _ _ hroles)).2
    · exact traces_diskRepairedRaid_refused ha
  | destroyRaid =>
    refine traces_exec_destroyRaid (traces_destroyRaid ⟨by omega, by omega⟩ ?_ ?_)
    · intro d h₁ h₂
      exact (inBounds_save h₁ h₂).1
    · intro d h₁ h₂
      exact (inBounds_save h₁ h₂).2
  | reboot => exact traces_exec_reboot
  | elsewhere kmem => exact traces_exec_elsewhere

/-- **Runs of safe calls stay within the tables.** -/
theorem stays_in_bounds (hn : 2 ≤ cfg.disks) : StaysInBounds cfg (SafeCall cfg) := by
  intro s₀ h s c hs₀ hr hsafe
  have hI : AllMeta cfg (MetaSound cfg) s := by
    refine hr.inv (fun _ s => AllMeta cfg (MetaSound cfg) s)
      (hs₀.metaSound (Nat.le_of_succ_le hn)) ?_
    intro h s c r s' hI hc hret
    refine metaSound_step hn hI ?_ hret
    rintro x rfl
    exact hc.1
  exact inBounds_exec hn hI hsafe

instance (cfg : Config) (m : Raid) (b : ℕ) : Decidable (SafeRead cfg m b) :=
  inferInstanceAs (Decidable (_ → _ ∧ (_ → _)))

instance (cfg : Config) (m : Raid) (b : ℕ) : Decidable (SafeWrite cfg m b) :=
  inferInstanceAs (Decidable ((_ → _) ∧ (_ → _)))

/-- An array of type `RAID1` is made, and block `0` is written. -/
def mirrorWrite : List Call := [.initRaid 1, .writeRaid 0 (some (bytes 7))]

/-- A read of block `0` after that. -/
theorem stays_in_bounds_five : 2 ≤ (smallConfig 5).disks ∧
    StaysInBounds (smallConfig 5) (SafeCall (smallConfig 5)) ∧
    Traces (Access.InBounds (smallConfig 5)) (exec (smallConfig 5) (.readRaid 0 (some (bytes 0))))
      (Reach.after (exec (smallConfig 5)) mirrorWrite blankMachine) ∧
    Access.dataDisks 0 ∈ (exec (smallConfig 5) (.readRaid 0 (some (bytes 0)))
      (Reach.after (exec (smallConfig 5)) mirrorWrite blankMachine)).trace := by
  have hn : 2 ≤ (smallConfig 5).disks := by decide
  have hload : SafeCall (smallConfig 5) blankMachine (.initRaid 1) :=
    ⟨by decide, fun _ => ⟨1, by decide⟩⟩
  have hwrite : ∀ m ∈ (exec (smallConfig 5) (.initRaid 1) blankMachine).state.raidMetadata,
      m.Accepts 0 → SafeWrite (smallConfig 5) m 0 := by decide +kernel
  have hread : ∀ m ∈ (Reach.after (exec (smallConfig 5)) mirrorWrite blankMachine).raidMetadata,
      m.Accepts 0 → SafeRead (smallConfig 5) m 0 := by decide +kernel
  refine ⟨hn, stays_in_bounds hn, stays_in_bounds hn _ mirrorWrite.reverse _ _ blankMachine_blank
    (.of_allows_start ?_) hread, by decide +kernel⟩
  exact ⟨⟨hload, by decide +kernel⟩, ⟨hwrite, by decide +kernel⟩, trivial⟩

/-- **A write leaves the table of states**: on two disks, a write to block `4` of an array of type
`RAID0` is to physical block `3`, and tests `disk_state[2]`. -/
theorem raid0_write_leaves_table : ¬ StaysInBounds (smallConfig 2) fun _ _ => True := by
  intro hstays
  have hr : Reach (exec (smallConfig 2)) (fun _ _ _ => True) blankMachine [.initRaid 0].reverse _ :=
    .of_allows_start (by decide +kernel)
  have hin : (0 : ℤ) ≤ 2 ∧ (2 : ℤ) < 2 := hstays blankMachine _ _ (.writeRaid 4 (some (bytes 7)))
    blankMachine_blank hr trivial (.diskState 2) (by decide +kernel)
  exact absurd hin.2 (by decide)

end RaidSystem
