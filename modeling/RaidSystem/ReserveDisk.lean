/-
**The reserve disk of a mirrored array.**

With an odd number of disks a mirrored array has one disk more than it needs.  When a disk fails
while this reserve disk is there, `disk_fail_raid` does not look for the column that the disk
serves, as it does without a reserve disk: it computes the column from the number of the disk.  A
disk of the first half is taken for the primary of column `diskn - 1`, and any other disk, be it the
reserve disk itself, for the copy of column `DISKS - diskn`.

This is right as long as the disks are where the arithmetic looks for them (`Placed`), which they
are not in general: `init_raid` makes disk `i + 1 + DISKS / 2` the copy of column `i`, and roles
move with every failure and repair.

Main definitions:

* `ReserveMeta` — the metadata of such an array: every disk that is not dead has a role or is the
  reserve disk, and while there is a reserve disk no disk is dead;
* `Placed` — the arithmetic finds the disk;
* `TakesOver` — what a failure should do while there is a reserve disk.

Main results:

* `reserve_takes_over` — **the reserve disk takes over the right role**, in runs where every disk
  that fails while there is a reserve disk is where the arithmetic looks for it;
* `reserve_misplaced` — with three disks, the failure of the copy leaves the dead disk in its role.
-/

import RaidSystem.MirrorArray

set_option autoImplicit false

namespace RaidSystem

open Prog Function

/-! ### Definitions -/

/-- Mirrored arrays with an odd number of disks. -/
structure OddMirror (cfg : Config) (t : RaidType) : Prop where
  type : t = .RAID1 ∨ t = .RAID0_1
  disks : 3 ≤ cfg.disks
  odd : cfg.disks % 2 = 1

/-- There is a reserve disk that is not in use. -/
def Raid.HasReserve (m : Raid) : Prop := m.reserveDisk ≠ -1 ∧ m.reserveDisk ≠ 0

/-- Every disk that is not dead has a role or is the reserve disk.  While there is a reserve disk,
no disk is dead and no place is empty. -/
structure ReserveMeta (cfg : Config) (t : RaidType) (m : Raid) : Prop where
  raidInitialized : m.raidInitialized = true
  type : m.type = t
  numOfDisks : m.numOfDisks = cfg.disks / 2
  roles : RoleTable (cfg.disks / 2) (fun d => LiveDisk cfg m d ∧ (d : ℤ) ≠ m.reserveDisk)
    m.dataDisks m.copyDisks
  reserve : m.reserveDisk = 0 ∨ ∃ r : ℕ, m.reserveDisk = r ∧ 1 ≤ r ∧ r ≤ cfg.disks
  alive : m.reserveDisk ≠ 0 → ∀ d, 1 ≤ d → d ≤ cfg.disks → ¬ m.Dead d
  full : m.reserveDisk ≠ 0 → ∀ i < cfg.disks / 2, m.copyDisks i ≠ -1

/-- `disk_fail_raid` finds disk `d` where it looks for it while there is a reserve disk: as the
primary of column `d - 1`, as the copy of column `DISKS - d`, or, if it looks for it beyond the last
column, as the reserve disk. -/
def Placed (cfg : Config) (m : Raid) (d : ℕ) : Prop :=
  d ≤ cfg.disks / 2 ∧ m.dataDisks (d - 1) = d ∨
  cfg.disks / 2 + 1 < d ∧ m.copyDisks (cfg.disks - d) = d ∨
  d = cfg.disks / 2 + 1 ∧ m.reserveDisk = d

/-- `r` is the reserve disk; it is not dead and has no role. -/
structure Reserve (cfg : Config) (m : Raid) (r : ℕ) : Prop where
  eq : m.reserveDisk = r
  live : LiveDisk cfg m r
  unused : ∀ i < cfg.disks / 2, m.dataDisks i ≠ r ∧ m.copyDisks i ≠ r

/-- What the failure of disk `d` should make of the metadata `m`, when `r` is the reserve disk. -/
structure TookOver (cfg : Config) (m : Raid) (r d : ℕ) (m' : Raid) : Prop where
  /-- The survivor of the column is its primary, and the reserve disk its copy. -/
  column : d ≠ r → ∀ i < cfg.disks / 2, m.dataDisks i = d ∨ m.copyDisks i = d →
    m'.dataDisks i = (if m.dataDisks i = d then m.copyDisks i else m.dataDisks i) ∧
      m'.copyDisks i = r ∧ m'.reserveDisk = 0
  /-- The other columns are as before. -/
  others : ∀ i < cfg.disks / 2, d = r ∨ m.dataDisks i ≠ d ∧ m.copyDisks i ≠ d →
    m'.dataDisks i = m.dataDisks i ∧ m'.copyDisks i = m.copyDisks i
  /-- There is no reserve disk any more. -/
  used : ¬ m'.HasReserve
  /-- No role names a dead disk. -/
  named : ∀ i < cfg.disks / 2, ∀ e : ℕ, m'.dataDisks i = e ∨ m'.copyDisks i = e → ¬ m'.Dead e

/-- The failure of a disk succeeds, and the reserve disk takes over. -/
def TakesOver (cfg : Config) (s : Machine) (m : Raid) (r d : ℕ) : Prop :=
  ∃ s' m', Returns (exec cfg (.diskFailRaid d)) s { code := 0 } s' ∧ s'.raidMetadata = some m' ∧
    TookOver cfg m r d m'

/-- Failures and repairs, where a disk that fails while there is a reserve disk satisfies `P`. -/
def FailsWith (cfg : Config) (P : Raid → ℕ → Prop) (s : Machine) : Call → Prop
  | .diskFailRaid x => ∀ m, ∀ d : ℕ, s.raidMetadata = some m → x = d → LiveDisk cfg m d →
      m.HasReserve → P m d
  | .diskRepairedRaid _ => True
  | _ => False

/-- After the array was created on zero-filled disks, and any run of failures and repairs in which
the disks that fail while there is a reserve disk satisfy `P`: the reserve disk takes over from
every disk that satisfies `P`. -/
def ReserveTakesOver (cfg : Config) (t : RaidType) (P : Raid → ℕ → Prop) : Prop :=
  ∀ s₀ : Machine, s₀.Blank → ∃ s₁, Returns (exec cfg (.initRaid t.code)) s₀ { code := 0 } s₁ ∧
    ∀ h s, Reach (exec cfg) (fun _ => FailsWith cfg P) s₁ h s →
      ∀ m r, s.raidMetadata = some m → Reserve cfg m r →
        ∀ d, LiveDisk cfg m d → P m d → TakesOver cfg s m r d

variable {cfg : Config} {t : RaidType} {s s' : Machine} {m m' : Raid} {d r i : ℕ}

theorem OddMirror.not_plain (hc : OddMirror cfg t) : t.plain = false := by
  rcases hc.type with rfl | rfl <;> rfl

theorem OddMirror.ne_other (hc : OddMirror cfg t) (v : ℕ) : t ≠ .other v := by
  rintro rfl
  rcases hc.type with h | h <;> cases h

/-! ### A new array -/

theorem OddMirror.reserveMeta_freshMeta (hc : OddMirror cfg t) :
    ReserveMeta cfg t (freshMeta cfg t) := by
  have hn := hc.disks
  have hodd := hc.odd
  have hdead := not_dead_freshMeta cfg t
  have hreserve : (freshMeta cfg t).reserveDisk = cfg.disks :=
    (freshMeta_reserveDisk hc.type).trans (if_neg (by omega))
  refine ⟨?_, ?_, ?_, ?_, ?_, fun _ d _ _ => hdead d, ?_⟩
  · rcases hc.type with rfl | rfl <;> rfl
  · rcases hc.type with rfl | rfl <;> rfl
  · rcases hc.type with rfl | rfl <;> rfl
  · refine .initial (fun d => ?_) (fun i => freshMeta_dataDisks hc.type)
      fun i => freshMeta_copyDisks hc.type
    rw [LiveDisk, hreserve, ← and_assoc, and_iff_left (hdead d)]
    omega
  · exact .inr ⟨cfg.disks, hreserve, by omega, le_rfl⟩
  · intro _ i hi
    rw [freshMeta_copyDisks hc.type hi]
    omega

/-! ### Failure with a reserve disk -/

/-- The copy of column `i` becomes its primary, and the reserve disk its copy. -/
def replacePrimary (m : Raid) (i : ℕ) : Raid :=
  { m with
    dataDisks := update m.dataDisks i (m.copyDisks i)
    copyDisks := update m.copyDisks i m.reserveDisk
    reserveDisk := 0 }

/-- The reserve disk becomes the copy of column `i`. -/
def replaceCopy (m : Raid) (i : ℕ) : Raid :=
  { m with
    copyDisks := update m.copyDisks i m.reserveDisk
    reserveDisk := 0 }

/-- The reserve disk is forgotten. -/
def dropReserve (m : Raid) : Raid := { m with reserveDisk := 0 }

section Fail

variable (hm : s.raidMetadata = some m) (hplain : m.type.plain = false) (hres : m.HasReserve)
  (hnum : m.numOfDisks = cfg.disks / 2)

include hm hplain hres

theorem failRoles_reserve :
    Returns (failRoles cfg d) s () s' ↔ Returns (failWithReserve cfg d m) s () s' := by
  have hused : m.reserveDisk ≠ -1 ∧ m.reserveDisk ≠ 0 := hres
  rw [failRoles, (metadata_returns hm).bind_iff, if_neg (by simp [hplain]), if_pos hused]

include hnum

/-- A disk of the first half is taken for a primary. -/
theorem failRoles_primary (h₁ : 1 ≤ d) (h₂ : d ≤ cfg.disks / 2) :
    Returns (failRoles cfg d) s () (s.withMeta (replacePrimary m (d - 1))) := by
  have hi : d - 1 < cfg.disks / 2 := by omega
  have hidx : (d : ℤ) - 1 = (d - 1 : ℕ) := by omega
  rw [failRoles_reserve hm hplain hres, failWithReserve, if_pos (by omega), hidx,
    (copyDisks_returns hm hi).bind_iff, (setDataDisks_returns hm hi _).bind_iff,
    (setCopyDisks_returns (s := s.withMeta { m with
      dataDisks := update m.dataDisks (d - 1) (m.copyDisks (d - 1)) }) rfl hi _).bind_iff]
  exact returns_setMetadata.2 ⟨_, rfl, rfl⟩

/-- A disk of the second half is taken for the copy of a column counted from the end. -/
theorem failRoles_copy (hodd : cfg.disks % 2 = 1) (h₁ : cfg.disks / 2 + 1 < d)
    (h₂ : d ≤ cfg.disks) :
    Returns (failRoles cfg d) s () (s.withMeta (replaceCopy m (cfg.disks - d))) := by
  have hi : cfg.disks - d < cfg.disks / 2 := by omega
  have hidx : (cfg.disks : ℤ) - d = (cfg.disks - d : ℕ) := by omega
  rw [failRoles_reserve hm hplain hres, failWithReserve, if_neg (by omega), hidx,
    (setCopyDisks_returns hm hi _).bind_iff]
  exact returns_setMetadata.2 ⟨_, rfl, rfl⟩

/-- For the disk in the middle this would be the column after the last: the store goes to the field
`reserve_disk`, and is overwritten. -/
theorem failRoles_middle (hodd : cfg.disks % 2 = 1) (hd : d = cfg.disks / 2 + 1) :
    Returns (failRoles cfg d) s () (s.withMeta (dropReserve m)) := by
  have hword : m.setWord cfg.disks (Raid.copyDisksBase cfg.disks + (cfg.disks - d)) m.reserveDisk =
      some { m with reserveDisk := m.reserveDisk } := by
    have hpos : Raid.copyDisksBase cfg.disks + (cfg.disks - d) = Raid.reserveDiskPos cfg.disks := by
      unfold Raid.copyDisksBase Raid.reserveDiskPos
      omega
    have hloc : Raid.locate cfg.disks (Raid.reserveDiskPos cfg.disks) = .reserveDisk := by
      unfold Raid.locate Raid.diskStateBase Raid.dataDisksBase Raid.copyDisksBase
        Raid.reserveDiskPos
      grind
    rw [hpos, Raid.setWord, hloc]
  have hstore := returns_setCopyDisks.2 ((returns_storeWord (u := ())).2 ⟨m, _, hm, hword, rfl⟩)
  rw [failRoles_reserve hm hplain hres, failWithReserve, if_neg (by omega), hstore.bind_iff]
  exact returns_setMetadata.2 ⟨_, rfl, rfl⟩

end Fail

/-! ### What the invariant says -/

namespace ReserveMeta

section

variable (hs : ReserveMeta cfg t m)

include hs

theorem hasReserve_iff : m.HasReserve ↔ m.reserveDisk ≠ 0 := by
  constructor
  · intro h
    exact h.2
  · intro h0
    refine ⟨?_, h0⟩
    rcases hs.reserve with h | ⟨r, hr, -, -⟩
    · exact absurd h h0
    · omega

/-- No role names a dead disk. -/
theorem named (hi : i < cfg.disks / 2) {e : ℕ} (he : m.dataDisks i = e ∨ m.copyDisks i = e) :
    ¬ m.Dead e := by
  rcases he with he | he
  · exact (hs.roles.live_of_data hi he).1.2.2
  · exact (hs.roles.live_of_copy hi he).1.2.2

/-- A disk with a role is not the reserve disk. -/
theorem ne_reserve (hr : m.reserveDisk = r) (hi : i < cfg.disks / 2)
    (hd : m.dataDisks i = d ∨ m.copyDisks i = d) : d ≠ r := by
  rintro rfl
  rcases hd with hd | hd
  · exact (hs.roles.live_of_data hi hd).2 hr.symm
  · exact (hs.roles.live_of_copy hi hd).2 hr.symm

/-- Two fields of the structure do not matter to the roles. -/
theorem of_roles (hinit : m'.raidInitialized = m.raidInitialized) (htype : m'.type = m.type)
    (hnum : m'.numOfDisks = m.numOfDisks) (hres : m'.reserveDisk = 0)
    (hroles : RoleTable (cfg.disks / 2) (fun e => LiveDisk cfg m' e) m'.dataDisks m'.copyDisks) :
    ReserveMeta cfg t m' where
  raidInitialized := hinit.trans hs.raidInitialized
  type := htype.trans hs.type
  numOfDisks := hnum.trans hs.numOfDisks
  roles := by
    refine hroles.congr fun e => ⟨fun he => ⟨he, ?_⟩, And.left⟩
    have := he.1
    omega
  reserve := .inl hres
  alive := fun h => absurd hres h
  full := fun h => absurd hres h

/-! ### The steps -/

/-- The disks with a role after the reserve disk took over from `d`. -/
theorem live_takeOver (hr : m.reserveDisk = r) (hr0 : r ≠ 0) (hdr : d ≠ r) (h₁ : 1 ≤ d) {e : ℕ} :
    ((LiveDisk cfg m e ∧ (e : ℤ) ≠ m.reserveDisk) ∧ e ≠ d) ∨ e = r ↔
      LiveDisk cfg (markDead m d) e := by
  have h0 : m.reserveDisk ≠ 0 := by omega
  rw [liveDisk_markDead h₁, hr]
  constructor
  · rintro (⟨⟨hl, -⟩, hed⟩ | rfl)
    · exact ⟨hl, hed⟩
    · rcases hs.reserve with h | ⟨r', hr', hlo, hhi⟩
      · exact absurd h h0
      · obtain rfl : e = r' := by omega
        exact ⟨⟨hlo, hhi, hs.alive h0 e hlo hhi⟩, Ne.symm hdr⟩
  · rintro ⟨hl, hed⟩
    rcases eq_or_ne e r with rfl | hne
    · exact .inr rfl
    · exact .inl ⟨⟨hl, by omega⟩, hed⟩

/-- **The primary of a column fails.** -/
theorem replacePrimary (hr : m.reserveDisk = r) (hr0 : r ≠ 0) (h₁ : 1 ≤ d) (hi : i < cfg.disks / 2)
    (hd : m.dataDisks i = d) :
    ReserveMeta cfg t (replacePrimary (markDead m d) i) := by
  have hfull := hs.full (by omega)
  have hdr := hs.ne_reserve hr hi (.inl hd)
  refine hs.of_roles rfl rfl rfl rfl ?_
  have hpromote := hs.roles.promote hi hd
  have hfill := hpromote.fillBackup (d := r) (fun h => h.1.2 hr.symm) hi
    (by rw [update_self]; exact hfull i hi) (update_self ..)
  rw [update_idem, ← hr] at hfill
  exact hfill.congr fun e => hs.live_takeOver hr hr0 hdr h₁

/-- **The copy of a column fails.** -/
theorem replaceCopy (hr : m.reserveDisk = r) (hr0 : r ≠ 0) (h₁ : 1 ≤ d) (hi : i < cfg.disks / 2)
    (hd : m.copyDisks i = d) :
    ReserveMeta cfg t (replaceCopy (markDead m d) i) := by
  have hfull := hs.full (by omega)
  have hdr := hs.ne_reserve hr hi (.inr hd)
  have hdata : m.dataDisks i ≠ -1 := fun hhole => hfull i hi (hs.roles.hole i hi hhole)
  refine hs.of_roles rfl rfl rfl rfl ?_
  have hdrop := hs.roles.dropBackup hi hd
  have hfill := hdrop.fillBackup (d := r) (fun h => h.1.2 hr.symm) hi hdata (update_self ..)
  rw [update_idem, ← hr] at hfill
  exact hfill.congr fun e => hs.live_takeOver hr hr0 hdr h₁

/-- **The reserve disk fails.** -/
theorem dropReserve (hr : m.reserveDisk = r) (h₁ : 1 ≤ r) :
    ReserveMeta cfg t (dropReserve (markDead m r)) := by
  refine hs.of_roles rfl rfl rfl rfl (hs.roles.congr fun e => ?_)
  rw [show LiveDisk cfg (RaidSystem.dropReserve (markDead m r)) e ↔
    LiveDisk cfg (markDead m r) e from Iff.rfl, liveDisk_markDead h₁, hr]
  exact and_congr_right fun _ => by omega

end

end ReserveMeta

/-- **A failure while there is a reserve disk**, of a disk where the arithmetic finds it. -/
theorem failRoles_placed (hc : OddMirror cfg t) (hs : ReserveMeta cfg t m) (hr : m.reserveDisk = r)
    (hr0 : r ≠ 0) (hd : LiveDisk cfg m d) (hp : Placed cfg m d) :
    ∃ m', Returns (failRoles cfg d) (s.withMeta (markDead m d)) ()
        (s.withMeta m') ∧ ReserveMeta cfg t m' ∧ TookOver cfg m r d m' := by
  obtain ⟨h₁, h₂, -⟩ := hd
  have hodd := hc.odd
  have hres : (markDead m d).HasReserve := hs.hasReserve_iff.2 (by omega)
  have hplain : (markDead m d).type.plain = false :=
    (congrArg RaidType.plain hs.type).trans hc.not_plain
  have hnum : (markDead m d).numOfDisks = cfg.disks / 2 := hs.numOfDisks
  have hused : ∀ m' : Raid, m'.reserveDisk = 0 → ¬ m'.HasReserve := fun m' h0 h => h.2 h0
  rcases hp with ⟨hle, hrole⟩ | ⟨hgt, hrole⟩ | ⟨hmid, hrole⟩
  · -- a primary
    have hi : d - 1 < cfg.disks / 2 := by omega
    have hdr := hs.ne_reserve hr hi (.inl hrole)
    have hnext := hs.replacePrimary hr hr0 h₁ hi hrole
    refine ⟨_, failRoles_primary rfl hplain hres hnum h₁ hle, hnext, ?_, ?_, hused _ rfl,
      fun i hi e he => hnext.named hi he⟩
    · intro _ i hi' hserves
      obtain rfl := hs.roles.row_unique hi' hi hserves (.inl hrole)
      refine ⟨?_, ?_, rfl⟩
      · rw [if_pos hrole]
        exact update_self ..
      · exact (update_self ..).trans hr
    · intro i hi' hother
      have hne : i ≠ d - 1 := by
        rintro rfl
        exact hother.elim hdr fun h => h.1 hrole
      exact ⟨update_of_ne hne _ _, update_of_ne hne _ _⟩
  · -- a copy
    have hi : cfg.disks - d < cfg.disks / 2 := by omega
    have hdr := hs.ne_reserve hr hi (.inr hrole)
    have hnext := hs.replaceCopy hr hr0 h₁ hi hrole
    refine ⟨_, failRoles_copy rfl hplain hres hnum hodd hgt h₂, hnext, ?_, ?_, hused _ rfl,
      fun i hi e he => hnext.named hi he⟩
    · intro _ i hi' hserves
      obtain rfl := hs.roles.row_unique hi' hi hserves (.inr hrole)
      have hdata : m.dataDisks (cfg.disks - d) ≠ d := by
        intro hdata
        have := hs.roles.disjoint _ hi _ hi (hdata.trans hrole.symm)
        omega
      refine ⟨?_, ?_, rfl⟩
      · rw [if_neg hdata]
        rfl
      · exact (update_self ..).trans hr
    · intro i hi' hother
      have hne : i ≠ cfg.disks - d := by
        rintro rfl
        exact hother.elim hdr fun h => h.2 hrole
      exact ⟨rfl, update_of_ne hne _ _⟩
  · -- the reserve disk
    obtain rfl : d = r := by omega
    have hnext := hs.dropReserve hr h₁
    exact ⟨_, failRoles_middle rfl hplain hres hnum hodd hmid, hnext, fun h => absurd rfl h,
      fun _ _ _ => ⟨rfl, rfl⟩, hused _ rfl, fun i hi e he => hnext.named hi he⟩

/-- A failure without a reserve disk keeps the invariant. -/
theorem failRoles_unreserved (hc : OddMirror cfg t) (hs : ReserveMeta cfg t m)
    (h0 : m.reserveDisk = 0) (hd : LiveDisk cfg m d) :
    ∃ m', Returns (failRoles cfg d) (s.withMeta (markDead m d)) ()
        (s.withMeta m') ∧ ReserveMeta cfg t m' := by
  have h₁ := hd.1
  have hplain : (markDead m d).type.plain = false :=
    (congrArg RaidType.plain hs.type).trans hc.not_plain
  have hlive : ∀ e, (LiveDisk cfg m e ∧ (e : ℤ) ≠ m.reserveDisk) ∧ e ≠ d ↔
      LiveDisk cfg (markDead m d) e := by
    intro e
    rw [liveDisk_markDead h₁, h0]
    constructor
    · intro he
      exact ⟨he.1.1, he.2⟩
    · intro he
      have := he.1.1
      exact ⟨⟨he.1, by omega⟩, he.2⟩
  have hroles := failRoles_mirror (s := s.withMeta (markDead m d)) rfl hplain
    (.inr h0) hs.numOfDisks hs.roles ⟨hd, by omega⟩
  rcases hroles with ⟨i, hi, hid, hroles⟩ | ⟨i, hi, hid, hroles⟩
  · exact ⟨_, hroles, hs.of_roles rfl rfl rfl h0 ((hs.roles.promote hi hid).congr hlive)⟩
  · exact ⟨_, hroles, hs.of_roles rfl rfl rfl h0 ((hs.roles.dropBackup hi hid).congr hlive)⟩

/-- The reserve disk is found again. -/
def setReserve (m : Raid) (d : ℕ) : Raid := { m with reserveDisk := d }

/-- If no place is empty, a repaired disk becomes the reserve disk. -/
theorem repairRoles_full (hm : s.raidMetadata = some m) (hplain : m.type.plain = false)
    (hnum : m.numOfDisks = cfg.disks / 2) (hdata : ∀ i < cfg.disks / 2, m.dataDisks i ≠ -1)
    (hcopy : ∀ i < cfg.disks / 2, m.copyDisks i ≠ -1) :
    Returns (repairRoles cfg d) s () (s.withMeta (setReserve m d)) := by
  have hdata' : Returns (findHole (dataDisks cfg) 0 (cfg.disks / 2)) s none s :=
    findHole_none (fun _ _ hl => dataDisks_returns hm (by omega)) fun l _ hl => hdata l (by omega)
  have hcopy' : Returns (findHole (copyDisks cfg) 0 (cfg.disks / 2)) s none s :=
    findHole_none (fun _ _ hl => copyDisks_returns hm (by omega)) fun l _ hl => hcopy l (by omega)
  rw [repairRoles, (metadata_returns hm).bind_iff, if_neg (by simp [hplain]), hnum,
    hdata'.bind_iff, hcopy'.bind_iff]
  exact returns_setMetadata.2 ⟨m, hm, rfl⟩

/-- A repair keeps the invariant. -/
theorem repairRoles_reserve (hc : OddMirror cfg t) (hs : ReserveMeta cfg t m) (h₁ : 1 ≤ d)
    (h₂ : d ≤ cfg.disks) (hd : m.Dead d) :
    ∃ m', Returns (repairRoles cfg d) (s.withMeta (markRepaired m d)) ()
        (s.withMeta m') ∧ ReserveMeta cfg t m' := by
  have hodd := hc.odd
  have h0 : m.reserveDisk = 0 := by
    by_contra h0
    exact hs.alive h0 d h₁ h₂ hd
  have hplain : (markRepaired m d).type.plain = false :=
    (congrArg RaidType.plain hs.type).trans hc.not_plain
  have hnot : ¬ (LiveDisk cfg m d ∧ (d : ℤ) ≠ m.reserveDisk) := fun hl => hl.1.2.2 hd
  have hlive : ∀ e, (LiveDisk cfg m e ∧ (e : ℤ) ≠ m.reserveDisk) ∨ e = d ↔
      LiveDisk cfg (markRepaired m d) e := by
    intro e
    rw [liveDisk_markRepaired h₁ h₂, h0]
    refine or_congr_left ⟨And.left, fun he => ⟨he, ?_⟩⟩
    have := he.1
    omega
  by_cases hhole : ∃ i < cfg.disks / 2, m.copyDisks i = -1
  · have hroles := repairRoles_mirror (s := s.withMeta (markRepaired m d)) (d := d) rfl
      hplain hs.numOfDisks hhole
    rcases hroles with ⟨i, hi, hid, hroles⟩ | ⟨hall, i, hi, hid, -, hroles⟩
    · exact ⟨_, hroles, hs.of_roles rfl rfl rfl h0 ((hs.roles.fillPrimary hnot hi hid).congr hlive)⟩
    · exact ⟨_, hroles,
        hs.of_roles rfl rfl rfl h0 ((hs.roles.fillBackup hnot hi (hall i hi) hid).congr hlive)⟩
  · have hcopy : ∀ i < cfg.disks / 2, m.copyDisks i ≠ -1 := fun i hi h => hhole ⟨i, hi, h⟩
    have hdata : ∀ i < cfg.disks / 2, m.dataDisks i ≠ -1 :=
      fun i hi h => hcopy i hi (hs.roles.hole i hi h)
    -- all the other disks have roles, so that none of them is dead
    have hothers : ∀ e, 1 ≤ e → e ≤ cfg.disks → e ≠ d → ¬ m.Dead e := by
      intro e he₁ he₂ hed hdead
      have hcard : ((Finset.Icc 1 cfg.disks).erase d).card ≤ 2 * (cfg.disks / 2) := by
        rw [Finset.card_erase_of_mem (Finset.mem_Icc.2 ⟨h₁, h₂⟩), Nat.card_Icc]
        omega
      have hmem : e ∈ (Finset.Icc 1 cfg.disks).erase d :=
        Finset.mem_erase.2 ⟨hed, Finset.mem_Icc.2 ⟨he₁, he₂⟩⟩
      refine hhole (hs.roles.exists_hole_of_card hcard (fun x hx => ?_) hmem
        fun hl => hl.1.2.2 hdead)
      refine Finset.mem_erase.2 ⟨?_, Finset.mem_Icc.2 ⟨hx.1.1, hx.1.2.1⟩⟩
      rintro rfl
      exact hx.1.2.2 hd
    refine ⟨_, repairRoles_full rfl hplain hs.numOfDisks hdata hcopy, hs.raidInitialized, hs.type,
      hs.numOfDisks, hs.roles.congr fun e => ?_, .inr ⟨d, rfl, h₁, h₂⟩, fun _ e he₁ he₂ hdead => ?_,
      fun _ => hcopy⟩
    · have hiff := hlive e
      change _ ↔ LiveDisk cfg (markRepaired m d) e ∧ (e : ℤ) ≠ (d : ℤ)
      constructor
      · intro he
        refine ⟨hiff.1 (.inl he), fun hed => ?_⟩
        obtain rfl : e = d := by omega
        exact hnot he
      · intro he
        exact (hiff.2 he.1).resolve_right fun hed => he.2 (by rw [hed])
    · have hdead' := (dead_markRepaired h₁ he₁).1 hdead
      exact hothers e he₁ he₂ hdead'.1 hdead'.2

/-! ### Runs -/

/-- A failure of a disk of the array, given what it does to the roles. -/
theorem diskFailRaid_of_roles (ha : Addresses cfg s d m d) (hd : ¬ m.Dead d)
    (hroles : Returns (failRoles cfg d) (s.withMeta (markDead m d)) ()
      (s.withMeta m')) :
    ∃ s', Returns (exec cfg (.diskFailRaid d)) s { code := 0 } s' ∧ s'.raidMetadata = some m' := by
  obtain ⟨s', hwb, hsaved⟩ := writeback_returns cfg (s := s.withMeta m') rfl
  exact ⟨s', returns_exec_diskFailRaid.2
    ⟨0, (returns_diskFailRaid ha).2 ⟨rfl, .inr ⟨hd, _, hroles, hwb⟩⟩, rfl⟩, hsaved.raidMetadata⟩

/-- **The reserve disk takes over** in one call. -/
theorem ReserveMeta.takesOver (hc : OddMirror cfg t) (hs : ReserveMeta cfg t m)
    (hm : s.raidMetadata = some m) (hr : Reserve cfg m r) (hd : LiveDisk cfg m d)
    (hp : Placed cfg m d) :
    TakesOver cfg s m r d := by
  have hr0 : r ≠ 0 := by
    have := hr.live.1
    omega
  obtain ⟨m', hroles, -, htook⟩ := failRoles_placed (s := s) hc hs hr.eq hr0 hd hp
  obtain ⟨s', hret, hm'⟩ :=
    diskFailRaid_of_roles ⟨hm, hs.raidInitialized, rfl, hd.1, hd.2.1⟩ hd.2.2 hroles
  exact ⟨s', m', hret, hm', htook⟩

/-- A failure or a repair keeps the invariant. -/
theorem ReserveMeta.step (hc : OddMirror cfg t) (hs : ReserveMeta cfg t m)
    (hm : s.raidMetadata = some m)
    {c : Call} {r : Reply} (hok : FailsWith cfg (Placed cfg) s c)
    (hret : Returns (exec cfg c) s r s') :
    ∃ m', s'.raidMetadata = some m' ∧ ReserveMeta cfg t m' := by
  cases c with
  | diskFailRaid x =>
    rcases diskFailRaid_idle_or s x with ⟨_, hidle⟩ | ⟨m₁, d, ha, hd⟩
    · obtain ⟨-, rfl⟩ := hret.unique hidle
      exact ⟨m, hm, hs⟩
    · obtain rfl := Option.mem_unique hm ha.1
      obtain ⟨-, -, rfl, h₁, h₂⟩ := id ha
      have hlive : LiveDisk cfg m d := ⟨h₁, h₂, hd⟩
      have hnext : ∃ m', Returns (failRoles cfg d) (s.withMeta (markDead m d)) ()
          (s.withMeta m') ∧ ReserveMeta cfg t m' := by
        rcases hs.reserve with h0 | ⟨r, hr, hlo, -⟩
        · exact failRoles_unreserved hc hs h0 hlive
        · have hres : m.HasReserve := hs.hasReserve_iff.2 (by omega)
          obtain ⟨m', hroles, hs', -⟩ := failRoles_placed (s := s) hc hs hr (by omega) hlive
            (hok m d hm rfl hlive hres)
          exact ⟨m', hroles, hs'⟩
      obtain ⟨m', hroles, hs'⟩ := hnext
      obtain ⟨s₁, hret', hm'⟩ := diskFailRaid_of_roles ha hd hroles
      obtain ⟨-, rfl⟩ := hret.unique hret'
      exact ⟨m', hm', hs'⟩
  | diskRepairedRaid x =>
    obtain ⟨c, hcall, -⟩ := returns_exec_diskRepairedRaid.1 hret
    rcases diskRepairedRaid_idle_or s x with ⟨_, hidle⟩ | ⟨m₁, d, ha, hd⟩
    · obtain ⟨-, rfl⟩ := hret.unique hidle
      exact ⟨m, hm, hs⟩
    · obtain rfl := Option.mem_unique hm ha.1
      obtain ⟨-, -, rfl, h₁, h₂⟩ := id ha
      obtain ⟨-, ⟨hd', -⟩ | ⟨-, s₁, hroles, hwb⟩⟩ := (returns_diskRepairedRaid ha).1 hcall
      · exact absurd hd hd'
      · obtain ⟨m', hroles', hs'⟩ := repairRoles_reserve (s := s) hc hs h₁ h₂ hd
        obtain ⟨-, rfl⟩ := hroles.unique hroles'
        exact ⟨m', (saved_of_writeback rfl hwb).raidMetadata, hs'⟩
  | _ => exact absurd hok id

/-- **The reserve disk takes over the right role**, if every disk that fails while there is a
reserve disk is where the arithmetic of `disk_fail_raid` looks for it. -/
theorem reserve_takes_over (hc : OddMirror cfg t) : ReserveTakesOver cfg t (Placed cfg) := by
  intro s₀ hs₀
  have hn : 1 ≤ cfg.disks := Nat.le_of_add_left_le hc.disks
  obtain ⟨s₁, hinit, hs₁⟩ := exec_initRaid_blank hn hc.ne_other hs₀
  refine ⟨s₁, hinit, ?_⟩
  intro h s hreach m r hm hr d hd hp
  have hI : ∃ m, s.raidMetadata = some m ∧ ReserveMeta cfg t m := by
    refine hreach.inv (fun _ s => ∃ m, s.raidMetadata = some m ∧ ReserveMeta cfg t m)
      ⟨freshMeta cfg t, hs₁.raidMetadata, hc.reserveMeta_freshMeta⟩ ?_
    rintro h s c r s' ⟨m, hm, hs⟩ hok hret
    exact hs.step hc hm hok hret
  obtain ⟨m₁, hm₁, hs⟩ := hI
  obtain rfl := Option.mem_unique hm₁ hm
  exact hs.takesOver hc hm hr hd hp

theorem oddMirror_three : OddMirror (smallConfig 3) .RAID1 := ⟨.inl rfl, by decide, by decide⟩

/-- The primary of the only column fails, and disk `3` takes over. -/
theorem reserve_takes_over_three : OddMirror (smallConfig 3) .RAID1 ∧
    ReserveTakesOver (smallConfig 3) .RAID1 (Placed (smallConfig 3)) ∧
    ∃ s₁ m, Returns (exec (smallConfig 3) (.initRaid 1)) blankMachine { code := 0 } s₁ ∧
      s₁.raidMetadata = some m ∧ TakesOver (smallConfig 3) s₁ m 3 1 := by
  have hover := reserve_takes_over oddMirror_three
  obtain ⟨_, ⟨hinit, rfl⟩, hrun⟩ := hover blankMachine blankMachine_blank
  have hbefore : ∃ m ∈ (exec (smallConfig 3) (.initRaid 1) blankMachine).state.raidMetadata,
      m.dataDisks 0 = 1 ∧ ¬ m.Dead 1 ∧ m.reserveDisk = 3 ∧ ¬ m.Dead 3 ∧
        ∀ i < 1, m.dataDisks i ≠ 3 ∧ m.copyDisks i ≠ 3 := by
    decide +kernel
  obtain ⟨m, hm, hdata, hone, hreserve, hthree, hunused⟩ := hbefore
  exact ⟨oddMirror_three, hover, _, m, ⟨hinit, rfl⟩, hm, hrun [] _ .start m 3 hm
    ⟨hreserve, ⟨by decide, by decide, hthree⟩, hunused⟩ 1 ⟨by decide, by decide, hone⟩
    (.inl ⟨by decide, hdata⟩)⟩

/-- **Three disks, and the copy fails**: the arithmetic looks for it in a column that does not
exist, and the dead disk stays in its role. -/
theorem reserve_misplaced :
    OddMirror (smallConfig 3) .RAID1 ∧ ¬ ReserveTakesOver (smallConfig 3) .RAID1
      fun _ _ => True := by
  refine ⟨oddMirror_three, fun hall => ?_⟩
  obtain ⟨_, ⟨-, rfl⟩, hrun⟩ := hall blankMachine blankMachine_blank
  have hbefore : ∃ m ∈ (exec (smallConfig 3) (.initRaid 1) blankMachine).state.raidMetadata,
      ¬ m.Dead 2 ∧ m.reserveDisk = 3 ∧ ¬ m.Dead 3 ∧ ∀ i < 1, m.dataDisks i ≠ 3 ∧
      m.copyDisks i ≠ 3 := by
    decide +kernel
  obtain ⟨m, hm, htwo, hreserve, hthree, hunused⟩ := hbefore
  obtain ⟨s', m', hret, hm', htook⟩ := hrun [] _ .start m 3 hm
    ⟨hreserve, ⟨by decide, by decide, hthree⟩, hunused⟩ 2 ⟨by decide, by decide, htwo⟩ trivial
  have hafter : ∀ m' ∈ (exec (smallConfig 3) (.diskFailRaid (2 : ℕ))
      (exec (smallConfig 3) (.initRaid RaidType.RAID1.code) blankMachine).state).state.raidMetadata,
      m'.copyDisks 0 = 2 ∧ m'.Dead 2 := by decide +kernel
  rw [hret.2] at hafter
  obtain ⟨hcopy, hdead⟩ := hafter m' hm'
  exact htook.named 0 (by decide) 2 (.inr hcopy) hdead

end RaidSystem
