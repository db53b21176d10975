/-
**Mirrored arrays: roles, access, failure and repair.**

In a `RAID1` or `RAID0_1` array with an even number of disks the role tables assign every disk that
is not dead to one place of one column (`MirrorMeta`, over `RoleTable`).  This module says what the
functions of the source do to such an array: an access reads the primary of its column, or writes
the primary and the copy; a failure promotes the copy, or empties its place; a repair gives the disk
to the first column without a primary, or else to the first without a copy.

An empty place holds `-1`, and `write_raid1` uses it as a disk number: it tests `disk_state[-2]`,
which is the word of `num_dead_disks`, and takes the place for that of a dead disk only if the count
is `1` (`returns_writeUnlessDead_hole`).

Main definitions:

* `MirrorConfig`, `MirrorMeta` — the arrays;
* `promoteCopy`, `dropCopy`, `fillData`, `fillCopy` — what failures and repairs do to the roles;
* `mirrorWritten` — the machine after a write.

Main results:

* `returns_readMirror`, `returns_writeMirror` — all that an access can do;
* `diskFailRaid_mirror`, `diskRepairedRaid_mirror` — failures and repairs, and
  `diskFailRaid_mirror_cases`, `diskRepairedRaid_mirror_cases` — all that they can do.
-/

import RaidSystem.Accesses
import RaidSystem.Lifecycle
import RaidSystem.RoleTable

set_option autoImplicit false

namespace RaidSystem

open Prog Function

/-! ### Definitions -/

/-- Mirrored arrays with an even number of disks. -/
structure MirrorConfig (cfg : Config) (t : RaidType) : Prop where
  type : t = .RAID1 ∨ t = .RAID0_1
  disks : 2 ≤ cfg.disks
  even : cfg.disks % 2 = 0

/-- The metadata of a mirrored array: every disk that is not dead has a role, and there is no
reserve disk. -/
structure MirrorMeta (cfg : Config) (t : RaidType) (m : Raid) : Prop where
  raidInitialized : m.raidInitialized = true
  type : m.type = t
  numOfDisks : m.numOfDisks = cfg.disks / 2
  maxBlocks : m.maxBlocks = capacity cfg (cfg.disks / 2)
  reserveDisk : m.reserveDisk = -1
  roles : RoleTable (cfg.disks / 2) (LiveDisk cfg m) m.dataDisks m.copyDisks

/-- The copy of column `i` becomes the primary. -/
def promoteCopy (m : Raid) (i : ℕ) : Raid :=
  { m with
    dataDisks := update m.dataDisks i (m.copyDisks i)
    copyDisks := update m.copyDisks i (-1) }

/-- Column `i` loses its copy. -/
def dropCopy (m : Raid) (i : ℕ) : Raid :=
  { m with copyDisks := update m.copyDisks i (-1) }

/-- Disk `d` becomes the primary of column `i`. -/
def fillData (m : Raid) (i d : ℕ) : Raid :=
  { m with dataDisks := update m.dataDisks i d }

/-- Disk `d` becomes the copy of column `i`. -/
def fillCopy (m : Raid) (i d : ℕ) : Raid :=
  { m with copyDisks := update m.copyDisks i d }

/-- The failure count, read as a disk state, is `DEAD`. -/
def Raid.CountIsOne (m : Raid) : Prop := Int.bmod m.numDeadDisks (2 ^ 32) = 1

instance (m : Raid) : Decidable m.CountIsOne := inferInstanceAs (Decidable (_ = _))

/-- The column and the physical block of a logical block. -/
def columnOf (cfg : Config) (b : ℕ) : ℕ := b % (cfg.disks / 2)

def blockOf (cfg : Config) (b : ℕ) : ℕ := b / (cfg.disks / 2) + 1

variable {cfg : Config} {t : RaidType} {s s' : Machine} {m : Raid} {i k d : ℕ} {buf : Block}

theorem MirrorConfig.columnOf_lt (hc : MirrorConfig cfg t) (b : ℕ) :
    columnOf cfg b < cfg.disks / 2 := by
  have hn := hc.disks
  exact Nat.mod_lt _ (by omega)

theorem MirrorConfig.not_plain (hc : MirrorConfig cfg t) : t.plain = false := by
  rcases hc.type with rfl | rfl <;> rfl

/-! ### Searching the tables -/

section Search

variable {entry : ℤ → Kernel ℤ} {f : ℕ → ℤ} {v : ℤ} {j : ℕ}

section

variable (hentry : ∀ l : ℕ, i ≤ l → l < i + k → Returns (entry l) s (f l) s)

include hentry

theorem findLast_none (hne : ∀ l, i ≤ l → l < i + k → f l ≠ v) (acc : ℤ) :
    Returns (findLast entry v i k acc) s acc s := by
  induction k generalizing i with
  | zero => simp [findLast]
  | succ k ih =>
    rw [findLast, (hentry i (by omega) (by omega)).bind_iff, if_neg (hne i (by omega) (by omega))]
    exact ih (fun l h₁ h₂ => hentry l (by omega) (by omega))
      (fun l h₁ h₂ => hne l (by omega) (by omega))

theorem findLast_unique (h₁ : i ≤ j) (h₂ : j < i + k) (hj : f j = v)
    (huniq : ∀ l, i ≤ l → l < i + k → f l = v → l = j) (acc : ℤ) :
    Returns (findLast entry v i k acc) s j s := by
  induction k generalizing i acc with
  | zero => omega
  | succ k ih =>
    rw [findLast, (hentry i (by omega) (by omega)).bind_iff]
    have hrest : ∀ l : ℕ, i + 1 ≤ l → l < i + 1 + k → Returns (entry l) s (f l) s :=
      fun l hl₁ hl₂ => hentry l (by omega) (by omega)
    rcases Nat.eq_or_lt_of_le h₁ with rfl | hlt
    · -- found; no later entry overrides it
      rw [if_pos hj]
      refine findLast_none hrest (fun l hl₁ hl₂ hl => ?_) _
      have := huniq l (by omega) (by omega) hl
      omega
    · exact ih hrest hlt (by omega) (fun l hl₁ hl₂ => huniq l (by omega) (by omega)) _

theorem findHole_none (hne : ∀ l, i ≤ l → l < i + k → f l ≠ -1) :
    Returns (findHole entry i k) s none s := by
  induction k generalizing i with
  | zero => simp [findHole]
  | succ k ih =>
    rw [findHole, (hentry i (by omega) (by omega)).bind_iff, if_neg (hne i (by omega) (by omega))]
    exact ih (fun l h₁ h₂ => hentry l (by omega) (by omega))
      fun l h₁ h₂ => hne l (by omega) (by omega)

theorem findHole_first (h₁ : i ≤ j) (h₂ : j < i + k) (hj : f j = -1)
    (hfirst : ∀ l, i ≤ l → l < j → f l ≠ -1) :
    Returns (findHole entry i k) s (some j) s := by
  induction k generalizing i with
  | zero => omega
  | succ k ih =>
    rw [findHole, (hentry i (by omega) (by omega)).bind_iff]
    rcases Nat.eq_or_lt_of_le h₁ with rfl | hlt
    · simp [hj]
    · rw [if_neg (hfirst i (by omega) hlt)]
      exact ih (fun l hl₁ hl₂ => hentry l (by omega) (by omega)) hlt (by omega)
        fun l hl₁ hl₂ => hfirst l (by omega) hl₂

end

end Search

/-! ### Access -/

section

variable (hm : s.raidMetadata = some m)

include hm

/-- For an empty place the test of the state looks at the failure count. -/
theorem dead_hole_returns :
    Returns (dead cfg (-1 - 1)) s (decide m.CountIsOne) s := by
  refine returns_dead.2 ⟨rfl, m, hm, ?_⟩
  rw [show (-1 - 1 : ℤ) = -2 by decide, Raid.word, Raid.locate_diskState_neg_two]
  rfl

/-- A read goes to the primary of the column, if there is one. -/
theorem returns_readMirror_live (hi : i < cfg.disks / 2) (hd : m.dataDisks i = d)
    (hl : LiveDisk cfg m d) {v : ℤ × Block} :
    Returns (readMirror cfg i k buf) s v s' ↔
      cfg.OnDisk k ∧ v = (0, (s.disk d (2 * k), s.disk d (2 * k + 1))) ∧ s' = s := by
  rw [readMirror, (dataDisks_returns hm hi).bind_iff, (copyDisks_returns hm hi).bind_iff, hd,
    (hl.dead_returns hm).bind_iff]
  simp only [Bool.false_eq_true, if_false, returns_bind, returns_readBlock, returns_pure,
    Int.toNat_natCast]
  constructor
  · rintro ⟨_, _, ⟨-, hk, rfl, rfl⟩, rfl, rfl⟩
    exact ⟨hk, rfl, rfl⟩
  · rintro ⟨hk, rfl, rfl⟩
    exact ⟨_, _, ⟨⟨by have := hl.1; omega, by have := hl.2.1; omega⟩, hk, rfl, rfl⟩, rfl, rfl⟩

theorem returns_writeUnlessDead_live (hl : LiveDisk cfg m d) {v : Bool} :
    Returns (writeUnlessDead cfg d k buf) s v s' ↔
      cfg.OnDisk k ∧ v = true ∧ s' = s.setBlock d k buf := by
  rw [writeUnlessDead, (hl.dead_returns hm).bind_iff]
  simp only [Bool.false_eq_true, if_false, returns_bind, returns_writeBlock, returns_pure,
    Int.toNat_natCast]
  constructor
  · rintro ⟨_, _, ⟨-, hk, rfl⟩, rfl, rfl⟩
    exact ⟨hk, rfl, rfl⟩
  · rintro ⟨hk, rfl, rfl⟩
    exact ⟨(), _, ⟨⟨by have := hl.1; omega, by have := hl.2.1; omega⟩, hk, rfl⟩, rfl, rfl⟩

/-- An empty place is passed over if the failure count is `1`, and taken for a disk otherwise. -/
theorem returns_writeUnlessDead_hole {v : Bool} :
    Returns (writeUnlessDead cfg (-1) k buf) s v s' ↔
      m.CountIsOne ∧ v = false ∧ s' = s := by
  rw [writeUnlessDead, (dead_hole_returns hm).bind_iff]
  by_cases hone : m.CountIsOne
  · simp [hone]
  · simp [hone, returns_writeBlock]

end

/-- The machine after block `k` was written to the disk in a place, unless the place is empty. -/
def writtenTo (x : ℤ) (k : ℕ) (buf : Block) (s : Machine) : Machine :=
  if x = -1 then s else s.setBlock x.toNat k buf

/-- The machine after block `k` was written to column `i`. -/
def mirrorWritten (m : Raid) (i k : ℕ) (buf : Block) (s : Machine) : Machine :=
  writtenTo (m.copyDisks i) k buf (writtenTo (m.dataDisks i) k buf s)

section Written

variable {x : ℤ} {e j : ℕ}

@[simp] theorem writtenTo_raidMetadata : (writtenTo x k buf s).raidMetadata = s.raidMetadata := by
  unfold writtenTo
  split <;> rfl

@[simp] theorem mirrorWritten_raidMetadata :
    (mirrorWritten m i k buf s).raidMetadata = s.raidMetadata := by
  simp [mirrorWritten]

theorem writtenTo_disk_fst (hx : x = -1 ∨ ∃ d : ℕ, x = d ∧ LiveDisk cfg m d) :
    (writtenTo x k buf s).disk e (2 * j) =
      if x = e ∧ j = k then buf.1 else s.disk e (2 * j) := by
  rcases hx with rfl | ⟨d, rfl, -⟩
  · simp [writtenTo, show (-1 : ℤ) ≠ e by omega]
  · simp [writtenTo, show (d : ℤ) ≠ -1 by omega, setBlock_disk_fst, eq_comm]

theorem writtenTo_disk_snd (hx : x = -1 ∨ ∃ d : ℕ, x = d ∧ LiveDisk cfg m d) :
    (writtenTo x k buf s).disk e (2 * j + 1) =
      if x = e ∧ j = k then buf.2 else s.disk e (2 * j + 1) := by
  rcases hx with rfl | ⟨d, rfl, -⟩
  · simp [writtenTo, show (-1 : ℤ) ≠ e by omega]
  · simp [writtenTo, show (d : ℤ) ≠ -1 by omega, setBlock_disk_snd, eq_comm]

section

variable (hr : RoleTable (cfg.disks / 2) (LiveDisk cfg m) m.dataDisks m.copyDisks)
  (hi : i < cfg.disks / 2)

include hr hi

/-- A write to a column reaches the disks in its two places, and nothing else. -/
theorem mirrorWritten_disk_fst : (mirrorWritten m i k buf s).disk e (2 * j) =
      if (m.dataDisks i = e ∨ m.copyDisks i = e) ∧ j = k then buf.1 else s.disk e (2 * j) := by
  rw [mirrorWritten, writtenTo_disk_fst (hr.copy_mem i hi), writtenTo_disk_fst (hr.data_mem i hi)]
  grind

theorem mirrorWritten_disk_snd : (mirrorWritten m i k buf s).disk e (2 * j + 1) =
      if (m.dataDisks i = e ∨ m.copyDisks i = e) ∧ j = k then buf.2 else s.disk e (2 * j + 1) := by
  rw [mirrorWritten, writtenTo_disk_snd (hr.copy_mem i hi), writtenTo_disk_snd (hr.data_mem i hi)]
  grind

end

end Written

/-- Writing to a place of the table. -/
theorem returns_writeUnlessDead {x : ℤ} (hm : s.raidMetadata = some m)
    (hx : x = -1 ∨ ∃ d : ℕ, x = d ∧ LiveDisk cfg m d) {v : Bool} :
    Returns (writeUnlessDead cfg x k buf) s v s' ↔
      (x = -1 → m.CountIsOne) ∧ (x ≠ -1 → cfg.OnDisk k) ∧ v = decide (x ≠ -1) ∧
        s' = writtenTo x k buf s := by
  rcases hx with rfl | ⟨d, rfl, hl⟩
  · rw [returns_writeUnlessDead_hole hm]
    simp [writtenTo]
  · have hne : (d : ℤ) ≠ -1 := by omega
    rw [returns_writeUnlessDead_live hm hl]
    simp [writtenTo, hne]

section

variable (hm : s.raidMetadata = some m) (hi : i < cfg.disks / 2)
  (hr : RoleTable (cfg.disks / 2) (LiveDisk cfg m) m.dataDisks m.copyDisks)

include hm hi hr

/-- **All that a write to a column can do.** -/
theorem returns_writeMirror {v : ℤ × Block} :
    Returns (writeMirror cfg i k buf) s v s' ↔
      (m.dataDisks i ≠ -1 → cfg.OnDisk k) ∧ (m.copyDisks i = -1 → m.CountIsOne) ∧
        v = (if m.dataDisks i = -1 then -1 else 0, buf) ∧ s' = mirrorWritten m i k buf s := by
  have hhole := hr.hole i hi
  have hm₁ : (writtenTo (m.dataDisks i) k buf s).raidMetadata = some m :=
    writtenTo_raidMetadata.trans hm
  rw [writeMirror, (dataDisks_returns hm hi).bind_iff, (copyDisks_returns hm hi).bind_iff]
  simp only [returns_bind, returns_pure, returns_writeUnlessDead hm (hr.data_mem i hi)]
  constructor
  · rintro ⟨_, _, ⟨h₁, h₂, rfl, rfl⟩, _, _, hcopy, rfl, rfl⟩
    obtain ⟨h₃, h₄, rfl, rfl⟩ := (returns_writeUnlessDead hm₁ (hr.copy_mem i hi)).1 hcopy
    refine ⟨h₂, h₃, ?_, rfl⟩
    by_cases hd : m.dataDisks i = -1
    · simp [hd, hhole hd]
    · simp [hd]
  · rintro ⟨h₁, h₂, rfl, rfl⟩
    refine ⟨_, _, ⟨fun hd => h₂ (hhole hd), h₁, rfl, rfl⟩, _, _,
      (returns_writeUnlessDead hm₁ (hr.copy_mem i hi)).2
        ⟨h₂, fun hc => h₁ fun hd => hc (hhole hd), rfl, rfl⟩, ?_, rfl⟩
    by_cases hd : m.dataDisks i = -1
    · simp [hd, hhole hd]
    · simp [hd]

/-- **All that a read of a column can do.** -/
theorem returns_readMirror {v : ℤ × Block} :
    Returns (readMirror cfg i k buf) s v s' ↔
      m.dataDisks i = -1 ∧ m.CountIsOne ∧ v = (-1, buf) ∧ s' = s ∨
      ∃ d, m.dataDisks i = (d : ℕ) ∧ LiveDisk cfg m d ∧ cfg.OnDisk k ∧
        v = (0, (s.disk d (2 * k), s.disk d (2 * k + 1))) ∧ s' = s := by
  rcases hr.data_mem i hi with hhole | ⟨d, hd, hl⟩
  · have hcopy := hr.hole i hi hhole
    have hne : ∀ d : ℕ, (-1 : ℤ) ≠ d := fun d => by omega
    rw [readMirror, (dataDisks_returns hm hi).bind_iff, (copyDisks_returns hm hi).bind_iff, hhole,
      hcopy, (dead_hole_returns hm).bind_iff]
    by_cases hone : m.CountIsOne
    · simp only [hone, decide_true, if_true, (dead_hole_returns hm).bind_iff, returns_pure, hne,
        true_and, false_and, exists_false, or_false]
    · simp [hone, returns_readBlock, hne]
  · rw [returns_readMirror_live hm hi hd hl]
    have hne : (d : ℤ) ≠ -1 := by omega
    constructor
    · rintro ⟨hk, hv, hs⟩
      exact .inr ⟨d, hd, hl, hk, hv, hs⟩
    · rintro (⟨hhole, -⟩ | ⟨e, he, -, hk, hv, hs⟩)
      · exact absurd (hd.symm.trans hhole) hne
      · obtain rfl : d = e := by omega
        exact ⟨hk, hv, hs⟩

end

section Dispatch

variable {b : ℕ} {r : ℤ × Option Block}

theorem MirrorConfig.ne_other (hc : MirrorConfig cfg t) (v : ℕ) : t ≠ .other v := by
  rintro rfl
  rcases hc.type with h | h <;> cases h

section

variable (hc : MirrorConfig cfg t) (hm : s.raidMetadata = some m) (hs : MirrorMeta cfg t m)

include hc hm hs

theorem returns_accessFunction_mirror {f : Bodies} {v : ℤ × Block} :
    Returns (accessFunction f m.type b buf) s v s' ↔
      Returns (f.mirror (columnOf cfg b) (blockOf cfg b) buf) s v s' := by
  have hn := hc.disks
  have hdiv : Returns (divisor (cfg.disks / 2)) s () s := divisor_returns (by omega)
  rw [hs.type]
  rcases hc.type with rfl | rfl
  · rw [accessFunction, (metadata_returns hm).bind_iff, hs.numOfDisks, hdiv.bind_iff]
    rfl
  · rw [accessFunction, (metadata_returns hm).bind_iff, hs.numOfDisks, hdiv.bind_iff]
    rfl

/-- An accepted read reaches the code that the two types share. -/
theorem returns_readRaid_mirror (hb : m.Accepts b) : Returns (readRaid cfg b (some buf)) s r s' ↔
      ∃ v, Returns (readMirror cfg (columnOf cfg b) (blockOf cfg b) buf) s v s' ∧
        r = (v.1, some v.2) := by
  simp only [returns_readRaid_type hm hb (hs.type ▸ hc.ne_other), readFunction_eq,
    returns_accessFunction_mirror hc hm hs]

/-- An accepted write reaches the code that the two types share. -/
theorem returns_writeRaid_mirror (hb : m.Accepts b) : Returns (writeRaid cfg b (some buf)) s r s' ↔
      ∃ v, Returns (writeMirror cfg (columnOf cfg b) (blockOf cfg b) buf) s v s' ∧
        r = (v.1, some v.2) := by
  simp only [returns_writeRaid_type hm hb (hs.type ▸ hc.ne_other), writeFunction_eq,
    returns_accessFunction_mirror hc hm hs]

end

end Dispatch

/-! ### Roles -/

theorem freshMeta_dataDisks (ht : t = .RAID1 ∨ t = .RAID0_1) (hi : i < cfg.disks / 2) :
    (freshMeta cfg t).dataDisks i = i + 1 := by
  rcases ht with rfl | rfl <;> simp [freshMeta, initMeta, initTypeMeta, initMirrorMeta, hi]

theorem freshMeta_copyDisks (ht : t = .RAID1 ∨ t = .RAID0_1) (hi : i < cfg.disks / 2) :
    (freshMeta cfg t).copyDisks i = i + 1 + (cfg.disks / 2 : ℕ) := by
  rcases ht with rfl | rfl <;> simp [freshMeta, initMeta, initTypeMeta, initMirrorMeta, hi]

theorem freshMeta_reserveDisk (ht : t = .RAID1 ∨ t = .RAID0_1) : (freshMeta cfg t).reserveDisk =
    if cfg.disks % 2 = 0 then -1 else (cfg.disks : ℤ) := by
  rcases ht with rfl | rfl <;> rfl

theorem MirrorConfig.mirrorMeta_freshMeta (hc : MirrorConfig cfg t) :
    MirrorMeta cfg t (freshMeta cfg t) := by
  have heven := hc.even
  refine ⟨?_, ?_, ?_, ?_, (freshMeta_reserveDisk hc.type).trans (if_pos heven), ?_⟩
  · rcases hc.type with rfl | rfl <;> rfl
  · rcases hc.type with rfl | rfl <;> rfl
  · rcases hc.type with rfl | rfl <;> rfl
  · rcases hc.type with rfl | rfl <;> rfl
  · refine .initial (fun d => ?_) (fun i => freshMeta_dataDisks hc.type)
      fun i => freshMeta_copyDisks hc.type
    rw [LiveDisk, and_iff_left (not_dead_freshMeta cfg t d)]
    omega

theorem MirrorConfig.init_returns (hc : MirrorConfig cfg t) {s₀ : Machine} (hs₀ : s₀.Blank) :
    ∃ s₁, Returns (exec cfg (.initRaid t.code)) s₀ { code := 0 } s₁ ∧ Initialised cfg t s₁ := by
  have hn := hc.disks
  exact exec_initRaid_blank (by omega) hc.ne_other hs₀

section

variable (hm : s.raidMetadata = some m)

include hm

/-- The search for a disk among the primaries, and then among the copies. -/
theorem findLast_dataDisks {live : ℕ → Prop}
    (hr : RoleTable (cfg.disks / 2) live m.dataDisks m.copyDisks) (hi : i < cfg.disks / 2)
    (hid : m.dataDisks i = d) :
    Returns (findLast (dataDisks cfg) d 0 (cfg.disks / 2) (-1)) s i s :=
  findLast_unique (fun _ _ hl => dataDisks_returns hm (by omega)) (Nat.zero_le i) (by omega) hid
    (fun l _ hl hld => hr.data_inj l (by omega) i hi (hld.trans hid.symm) (by omega)) _

theorem findLast_copyDisks {live : ℕ → Prop}
    (hr : RoleTable (cfg.disks / 2) live m.dataDisks m.copyDisks) (hi : i < cfg.disks / 2)
    (hid : m.copyDisks i = d) :
    Returns (findLast (dataDisks cfg) d 0 (cfg.disks / 2) (-1)) s (-1) s ∧
      Returns (findLast (copyDisks cfg) d 0 (cfg.disks / 2) (-1)) s i s := by
  refine ⟨findLast_none (fun _ _ hl => dataDisks_returns hm (by omega)) (fun l _ hl hld => ?_) _,
    findLast_unique (fun _ _ hl => copyDisks_returns hm (by omega)) (Nat.zero_le i) (by omega) hid
      (fun l _ hl hld => hr.copy_inj l (by omega) i hi (hld.trans hid.symm) (by omega)) _⟩
  have := hr.disjoint l (by omega) i hi (hld.trans hid.symm)
  omega

/-- What a failure does to the roles: the copy of the lost primary is promoted, or the place of the
lost copy becomes empty. -/
theorem failRoles_mirror {live : ℕ → Prop} (hplain : m.type.plain = false)
    (hres : m.reserveDisk = -1 ∨ m.reserveDisk = 0) (hnum : m.numOfDisks = cfg.disks / 2)
    (hr : RoleTable (cfg.disks / 2) live m.dataDisks m.copyDisks) (hd : live d) :
    (∃ i < cfg.disks / 2, m.dataDisks i = d ∧
      Returns (failRoles cfg d) s () (s.withMeta (promoteCopy m i))) ∨
    ∃ i < cfg.disks / 2, m.copyDisks i = d ∧
      Returns (failRoles cfg d) s () (s.withMeta (dropCopy m i)) := by
  have hnone : ¬ (m.reserveDisk ≠ -1 ∧ m.reserveDisk ≠ 0) := fun h => hres.elim h.1 h.2
  have hwithout : ∀ s', Returns (failRoles cfg d) s () s' ↔
      Returns (failWithoutReserve cfg d m) s () s' := by
    intro s'
    rw [failRoles, (metadata_returns hm).bind_iff, if_neg (by simp [hplain]), if_neg hnone]
  simp only [hwithout, failWithoutReserve, hnum]
  rcases hr.onto d hd with ⟨i, hi, hid⟩ | ⟨i, hi, hid⟩
  · refine .inl ⟨i, hi, hid, ?_⟩
    rw [(findLast_dataDisks hm hr hi hid).bind_iff, if_pos (by omega),
      (copyDisks_returns hm hi).bind_iff, (setDataDisks_returns hm hi _).bind_iff]
    exact setCopyDisks_returns (s := s.withMeta { m with
      dataDisks := update m.dataDisks i (m.copyDisks i) }) rfl hi (-1)
  · refine .inr ⟨i, hi, hid, ?_⟩
    obtain ⟨hdata, hcopy⟩ := findLast_copyDisks hm hr hi hid
    rw [hdata.bind_iff, if_neg (by simp), hcopy.bind_iff]
    exact setCopyDisks_returns hm hi _

/-- What a repair does to the roles: the disk goes to the first column without a primary, or else to
the first without a copy. -/
theorem repairRoles_mirror (hplain : m.type.plain = false) (hnum : m.numOfDisks = cfg.disks / 2)
    (hhole : ∃ i < cfg.disks / 2, m.copyDisks i = -1) :
    (∃ i < cfg.disks / 2, m.dataDisks i = -1 ∧
      Returns (repairRoles cfg d) s () (s.withMeta (fillData m i d))) ∨
    (∀ j < cfg.disks / 2, m.dataDisks j ≠ -1) ∧ ∃ i < cfg.disks / 2, m.copyDisks i = -1 ∧
      (∀ j < i, m.copyDisks j ≠ -1) ∧
      Returns (repairRoles cfg d) s () (s.withMeta (fillCopy m i d)) := by
  have hdata : ∀ l : ℕ, 0 ≤ l → l < 0 + cfg.disks / 2 →
      Returns (dataDisks cfg l) s (m.dataDisks l) s :=
    fun l _ hl => dataDisks_returns hm (by omega)
  have hcopy : ∀ l : ℕ, 0 ≤ l → l < 0 + cfg.disks / 2 →
      Returns (copyDisks cfg l) s (m.copyDisks l) s :=
    fun l _ hl => copyDisks_returns hm (by omega)
  -- the first empty place of a kind
  have hleast : ∀ f : ℕ → ℤ, (∃ i < cfg.disks / 2, f i = -1) →
      ∃ i < cfg.disks / 2, f i = -1 ∧ ∀ j < i, f j ≠ -1 := by
    intro f hf
    obtain ⟨hi, hfi⟩ := Nat.find_spec hf
    exact ⟨Nat.find hf, hi, hfi, fun j hj hfj => Nat.find_min hf hj ⟨by omega, hfj⟩⟩
  by_cases hprim : ∃ i < cfg.disks / 2, m.dataDisks i = -1
  · obtain ⟨i, hi, hid, hfirst⟩ := hleast _ hprim
    refine .inl ⟨i, hi, hid, ?_⟩
    rw [repairRoles, (metadata_returns hm).bind_iff, if_neg (by simp [hplain]), hnum,
      (findHole_first hdata (Nat.zero_le i) (by omega) hid fun l _ hl => hfirst l hl).bind_iff]
    exact setDataDisks_returns hm hi _
  · have hall : ∀ j < cfg.disks / 2, m.dataDisks j ≠ -1 := fun j hj hjd => hprim ⟨j, hj, hjd⟩
    obtain ⟨i, hi, hid, hfirst⟩ := hleast _ hhole
    refine .inr ⟨hall, i, hi, hid, hfirst, ?_⟩
    rw [repairRoles, (metadata_returns hm).bind_iff, if_neg (by simp [hplain]), hnum,
      (findHole_none hdata fun l _ hl => hall l (by omega)).bind_iff,
      (findHole_first hcopy (Nat.zero_le i) (by omega) hid fun l _ hl => hfirst l hl).bind_iff]
    exact setCopyDisks_returns hm hi _

end

theorem liveDisk_markDead {e : ℕ} (h₁ : 1 ≤ d) :
    LiveDisk cfg (markDead m d) e ↔ LiveDisk cfg m e ∧ e ≠ d := by
  unfold LiveDisk
  constructor
  · rintro ⟨he₁, he₂, he⟩
    rw [dead_markDead h₁ he₁, not_or] at he
    exact ⟨⟨he₁, he₂, he.2⟩, he.1⟩
  · rintro ⟨⟨he₁, he₂, he⟩, hed⟩
    refine ⟨he₁, he₂, ?_⟩
    rw [dead_markDead h₁ he₁, not_or]
    exact ⟨hed, he⟩

theorem liveDisk_markRepaired {e : ℕ} (h₁ : 1 ≤ d) (h₂ : d ≤ cfg.disks) :
    LiveDisk cfg (markRepaired m d) e ↔ LiveDisk cfg m e ∨ e = d := by
  unfold LiveDisk
  constructor
  · rintro ⟨he₁, he₂, he⟩
    rw [dead_markRepaired h₁ he₁] at he
    by_cases hed : e = d
    · exact .inr hed
    · exact .inl ⟨he₁, he₂, fun hdead => he ⟨hed, hdead⟩⟩
  · rintro (⟨he₁, he₂, he⟩ | rfl)
    · refine ⟨he₁, he₂, ?_⟩
      rw [dead_markRepaired h₁ he₁]
      exact fun h => he h.2
    · refine ⟨h₁, h₂, ?_⟩
      rw [dead_markRepaired h₁ h₁]
      exact fun h => h.1 rfl

section

variable (hs : MirrorMeta cfg t m) (h₁ : 1 ≤ d)

include hs h₁

/-- The metadata after the failure of the primary of column `i`. -/
theorem MirrorMeta.promoteCopy (hi : i < cfg.disks / 2) (hid : m.dataDisks i = d) :
    MirrorMeta cfg t (promoteCopy (markDead m d) i) :=
  { hs with roles := (hs.roles.promote hi hid).congr fun _ => (liveDisk_markDead h₁).symm }

/-- The metadata after the failure of the copy of column `i`. -/
theorem MirrorMeta.dropCopy (hi : i < cfg.disks / 2) (hid : m.copyDisks i = d) :
    MirrorMeta cfg t (dropCopy (markDead m d) i) :=
  { hs with roles := (hs.roles.dropBackup hi hid).congr fun _ => (liveDisk_markDead h₁).symm }

/-- The metadata after a repair that gives the disk to a column without a primary. -/
theorem MirrorMeta.fillData (h₂ : d ≤ cfg.disks) (hd : m.Dead d) (hi : i < cfg.disks / 2)
    (hhole : m.dataDisks i = -1) :
    MirrorMeta cfg t (fillData (markRepaired m d) i d) :=
  { hs with
    roles := (hs.roles.fillPrimary (fun hl => hl.2.2 hd) hi hhole).congr
      fun _ => (liveDisk_markRepaired h₁ h₂).symm }

/-- The metadata after a repair that gives the disk to a column without a copy. -/
theorem MirrorMeta.fillCopy (h₂ : d ≤ cfg.disks) (hd : m.Dead d) (hi : i < cfg.disks / 2)
    (hdata : m.dataDisks i ≠ -1) (hhole : m.copyDisks i = -1) :
    MirrorMeta cfg t (fillCopy (markRepaired m d) i d) :=
  { hs with
    roles := (hs.roles.fillBackup (fun hl => hl.2.2 hd) hi hdata hhole).congr
      fun _ => (liveDisk_markRepaired h₁ h₂).symm }

end

/-! ### Failure and repair -/

/-- **The failure of a disk** succeeds, promotes its copy or empties its place, and saves. -/
theorem diskFailRaid_mirror (hc : MirrorConfig cfg t) (hs : MirrorMeta cfg t m) {x : ℤ}
    (ha : Addresses cfg s x m d) (hd : ¬ m.Dead d) :
    ∃ s' m' i, Returns (diskFailRaid cfg x) s 0 s' ∧
      Returns (failRoles cfg d) (s.withMeta (markDead m d)) ()
        (s.withMeta m') ∧
      Saved cfg (fun e => ¬ m'.Dead e) m' s s' ∧ MirrorMeta cfg t m' ∧ i < cfg.disks / 2 ∧
      (m.dataDisks i = d ∧ m' = promoteCopy (markDead m d) i ∨
        m.copyDisks i = d ∧ m' = dropCopy (markDead m d) i) := by
  obtain ⟨-, -, -, h₁, h₂⟩ := id ha
  have hlive : LiveDisk cfg m d := ⟨h₁, h₂, hd⟩
  have hplain : (markDead m d).type.plain = false :=
    (congrArg RaidType.plain hs.type).trans hc.not_plain
  have hroles := failRoles_mirror (s := s.withMeta (markDead m d)) rfl hplain
    (.inl hs.reserveDisk) hs.numOfDisks hs.roles hlive
  rcases hroles with ⟨i, hi, hid, hroles⟩ | ⟨i, hi, hid, hroles⟩
  · obtain ⟨s', hwb, hsaved⟩ := writeback_returns cfg
      (s := s.withMeta (promoteCopy (markDead m d) i)) rfl
    exact ⟨s', _, i, (returns_diskFailRaid ha).2 ⟨rfl, .inr ⟨hd, _, hroles, hwb⟩⟩, hroles,
      hsaved.of_setMetadata, hs.promoteCopy h₁ hi hid, hi, .inl ⟨hid, rfl⟩⟩
  · obtain ⟨s', hwb, hsaved⟩ := writeback_returns cfg
      (s := s.withMeta (dropCopy (markDead m d) i)) rfl
    exact ⟨s', _, i, (returns_diskFailRaid ha).2 ⟨rfl, .inr ⟨hd, _, hroles, hwb⟩⟩, hroles,
      hsaved.of_setMetadata, hs.dropCopy h₁ hi hid, hi, .inr ⟨hid, rfl⟩⟩

/-- **The repair of a disk** succeeds, gives it the first empty place of a primary, or else that of
a copy, and saves. -/
theorem diskRepairedRaid_mirror (hc : MirrorConfig cfg t) (hs : MirrorMeta cfg t m) {x : ℤ}
    (ha : Addresses cfg s x m d) (hd : m.Dead d) :
    ∃ s' m' i, Returns (diskRepairedRaid cfg x) s 0 s' ∧ Saved cfg (fun e => ¬ m'.Dead e) m' s s' ∧
      MirrorMeta cfg t m' ∧ i < cfg.disks / 2 ∧
      (m.dataDisks i = -1 ∧ m' = fillData (markRepaired m d) i d ∨
        (∀ j < cfg.disks / 2, m.dataDisks j ≠ -1) ∧ m.copyDisks i = -1 ∧
          (∀ j < i, m.copyDisks j ≠ -1) ∧ m' = fillCopy (markRepaired m d) i d) := by
  obtain ⟨-, -, -, h₁, h₂⟩ := id ha
  have heven := hc.even
  have hplain : (markRepaired m d).type.plain = false :=
    (congrArg RaidType.plain hs.type).trans hc.not_plain
  -- a dead disk leaves an empty place
  have hhole : ∃ i < cfg.disks / 2, m.copyDisks i = -1 :=
    hs.roles.exists_hole (fun e he => ⟨he.1, by have := he.2.1; omega⟩) h₁ (by omega)
      fun hl => hl.2.2 hd
  have hroles := repairRoles_mirror (s := s.withMeta (markRepaired m d))
    (d := d) rfl hplain hs.numOfDisks hhole
  rcases hroles with ⟨i, hi, hid, hroles⟩ | ⟨hall, i, hi, hid, hfirst, hroles⟩
  · obtain ⟨s', hwb, hsaved⟩ := writeback_returns cfg
      (s := s.withMeta (fillData (markRepaired m d) i d)) rfl
    exact ⟨s', _, i, (returns_diskRepairedRaid ha).2 ⟨rfl, .inr ⟨hd, _, hroles, hwb⟩⟩,
      hsaved.of_setMetadata, hs.fillData h₁ h₂ hd hi hid, hi, .inl ⟨hid, rfl⟩⟩
  · obtain ⟨s', hwb, hsaved⟩ := writeback_returns cfg
      (s := s.withMeta (fillCopy (markRepaired m d) i d)) rfl
    exact ⟨s', _, i, (returns_diskRepairedRaid ha).2 ⟨rfl, .inr ⟨hd, _, hroles, hwb⟩⟩,
      hsaved.of_setMetadata, hs.fillCopy h₁ h₂ hd hi (hall i hi) hid, hi,
      .inr ⟨hall, hid, hfirst, rfl⟩⟩

/-- A failure does nothing, or takes a disk out of its column. -/
theorem diskFailRaid_mirror_cases (hc : MirrorConfig cfg t) (hm : s.raidMetadata = some m)
    (hs : MirrorMeta cfg t m) {x : ℤ} {r : Reply}
    (hr : Returns (exec cfg (.diskFailRaid x)) s r s') :
    s' = s ∨ ∃ d m' i, x = (d : ℕ) ∧ Saved cfg (fun e => ¬ m'.Dead e) m' s s' ∧
      MirrorMeta cfg t m' ∧ i < cfg.disks / 2 ∧
      (m.dataDisks i = d ∧ m' = promoteCopy (markDead m d) i ∨
        m.copyDisks i = d ∧ m' = dropCopy (markDead m d) i) := by
  rcases diskFailRaid_idle_or s x with ⟨_, hidle⟩ | ⟨m', d, haddr, hd⟩
  · exact .inl (hr.unique hidle).2
  · obtain rfl := Option.mem_unique hm haddr.1
    obtain ⟨s₁, m', i, hret, -, hrest⟩ := diskFailRaid_mirror hc hs haddr hd
    obtain ⟨-, rfl⟩ := hr.unique (returns_exec_diskFailRaid.2 ⟨0, hret, rfl⟩)
    exact .inr ⟨d, m', i, haddr.2.2.1, hrest⟩

/-- A repair does nothing, or gives a disk an empty place. -/
theorem diskRepairedRaid_mirror_cases (hc : MirrorConfig cfg t) (hm : s.raidMetadata = some m)
    (hs : MirrorMeta cfg t m) {x : ℤ} {r : Reply}
    (hr : Returns (exec cfg (.diskRepairedRaid x)) s r s') :
    s' = s ∨ ∃ d m' i, Addresses cfg s x m d ∧ m.Dead d ∧
      Saved cfg (fun e => ¬ m'.Dead e) m' s s' ∧ MirrorMeta cfg t m' ∧ i < cfg.disks / 2 ∧
      (m.dataDisks i = -1 ∧ m' = fillData (markRepaired m d) i d ∨
        (∀ j < cfg.disks / 2, m.dataDisks j ≠ -1) ∧ m.copyDisks i = -1 ∧
          (∀ j < i, m.copyDisks j ≠ -1) ∧ m' = fillCopy (markRepaired m d) i d) := by
  rcases diskRepairedRaid_idle_or s x with ⟨_, hidle⟩ | ⟨m', d, haddr, hd⟩
  · exact .inl (hr.unique hidle).2
  · obtain rfl := Option.mem_unique hm haddr.1
    obtain ⟨s₁, m', i, hret, hrest⟩ := diskRepairedRaid_mirror hc hs haddr hd
    obtain ⟨-, rfl⟩ := hr.unique (returns_exec_diskRepairedRaid.2 ⟨0, hret, rfl⟩)
    exact .inr ⟨d, m', i, haddr, hd, hrest⟩

end RaidSystem
