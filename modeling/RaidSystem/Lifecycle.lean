/-
**Loading, saving and changing the metadata.**

What the calls that are not accesses do to the machine: `fetch` and `writeback`, and on top of them
`init_raid`, `disk_fail_raid` and `disk_repaired_raid`.  None of them touches a block other than
block `0` of a disk, and each of them that changes the metadata ends by saving them.

Main definitions:

* `LiveDisk` — the disks that are not dead;
* `Machine.Blank` — a machine that has just booted on zero-filled disks;
* `Saved` — the metadata have been saved on the disks that satisfy a condition, and nothing else
  has happened;
* `initMeta`, `markDead`, `markRepaired` — what the calls do to the structure.

Main results:

* `writeback_returns`, `initRaid_returns`, `initRaid_blank` — saving and initialising always
  succeed, and what they leave;
* `returns_diskFailRaid`, `returns_diskRepairedRaid` — **all that a failure or a repair can do**:
  be refused, find nothing to do, or change state and roles and save.
-/

import RaidSystem.History
import RaidSystem.Placement

set_option autoImplicit false

namespace RaidSystem

open Prog Function

variable {cfg : Config}

/-- `d` is the number of a disk that is not dead. -/
def LiveDisk (cfg : Config) (m : Raid) (d : ℕ) : Prop := 1 ≤ d ∧ d ≤ cfg.disks ∧ ¬ m.Dead d

theorem LiveDisk.dead_returns {s : Machine} {m : Raid} {d : ℕ} (hd : LiveDisk cfg m d)
    (hm : s.raidMetadata = some m) :
    Returns (dead cfg (d - 1)) s false s :=
  (returns_dead_disk hd.1 hd.2.1).2 ⟨rfl, m, hm, by simp [hd.2.2]⟩

/-! ### Saving -/

/-- `s'` is `s` after the metadata `m` were saved on the disks that satisfy `live`. -/
structure Saved (cfg : Config) (live : ℕ → Prop) (m : Raid) (s s' : Machine) : Prop where
  raidMetadata : s'.raidMetadata = some m
  page : s'.page = s.page
  kmem : s'.kmem = s.kmem
  pages : s'.pages = s.pages
  super_live : ∀ d, 1 ≤ d → d ≤ cfg.disks → live d → s'.super d = m
  super_dead : ∀ d, ¬ live d → s'.super d = s.super d
  disk : ∀ d j, 2 ≤ j → s'.disk d j = s.disk d j

/-- What the memory held before does not matter to a save. -/
theorem Saved.of_setMetadata {live : ℕ → Prop} {m : Raid} {s s' : Machine} {x : Option Raid}
    (h : Saved cfg live m { s with raidMetadata := x } s') : Saved cfg live m s s' :=
  ⟨h.raidMetadata, h.page, h.kmem, h.pages, h.super_live, h.super_dead, h.disk⟩

/-- The machine after the metadata `m` were written to disk `d`. -/
def Machine.setSuper (s : Machine) (d : ℕ) (m : Raid) : Machine :=
  { s with
    super := update s.super d m
    disk := update s.disk d (update (s.disk d) 1 (s.page 1)) }

/-- A loop that writes the metadata to the disks that satisfy `live` saves them there. -/
theorem forRange_saved {live : ℕ → Prop} [DecidablePred live] {body : ℕ → Kernel Unit} {m : Raid}
    (hbody : ∀ i s, 1 ≤ i → i ≤ cfg.disks → s.raidMetadata = some m →
      Returns (body i) s () (if live i then s.setSuper i m else s))
    {s : Machine} (hm : s.raidMetadata = some m) :
    ∃ s', Returns (forRange body 1 cfg.disks) s () s' ∧ Saved cfg live m s s' := by
  -- after the rounds below `i`, the metadata are saved on the disks below `i`
  let I : ℕ → Machine → Prop := fun i s' => Saved cfg (fun d => live d ∧ d < i) m s s'
  have hstart : I 1 s := by
    refine ⟨hm, rfl, rfl, rfl, ?_, fun _ _ => rfl, fun _ _ _ => rfl⟩
    intro d h₁ _ hd
    omega
  have hround : ∀ i s₁, 1 ≤ i → i < 1 + cfg.disks → I i s₁ →
      ∃ s₂, Returns (body i) s₁ () s₂ ∧ I (i + 1) s₂ := by
    intro i s₁ h₁ h₂ hI
    refine ⟨_, hbody i s₁ h₁ (by omega) hI.raidMetadata, ?_⟩
    split
    case isTrue hl =>
      refine ⟨hI.raidMetadata, hI.page, hI.kmem, hI.pages, ?_, ?_, ?_⟩
      · intro d hd₁ hd₂ hd
        by_cases hdi : d = i
        · simp [Machine.setSuper, hdi]
        · simpa [Machine.setSuper, hdi] using hI.super_live d hd₁ hd₂ ⟨hd.1, by omega⟩
      · intro d hd
        have hdi : d ≠ i := by
          rintro rfl
          exact hd ⟨hl, by omega⟩
        simpa [Machine.setSuper, hdi] using hI.super_dead d fun h => hd ⟨h.1, by omega⟩
      · intro d j hj
        rw [← hI.disk d j hj]
        by_cases hdi : d = i
        · subst hdi
          simp [Machine.setSuper, show j ≠ 1 by omega]
        · simp [Machine.setSuper, hdi]
    case isFalse hl =>
      refine ⟨hI.raidMetadata, hI.page, hI.kmem, hI.pages, ?_, ?_, hI.disk⟩
      · intro d hd₁ hd₂ hd
        have hdi : d ≠ i := by
          rintro rfl
          exact hl hd.1
        exact hI.super_live d hd₁ hd₂ ⟨hd.1, by omega⟩
      · intro d hd
        exact hI.super_dead d fun h => hd ⟨h.1, by omega⟩
  obtain ⟨s', hr, hs⟩ := forRange_returns I hround hstart
  refine ⟨s', hr, ⟨hs.raidMetadata, hs.page, hs.kmem, hs.pages, ?_, ?_, hs.disk⟩⟩
  · intro d h₁ h₂ hl
    exact hs.super_live d h₁ h₂ ⟨hl, by omega⟩
  · intro d hl
    exact hs.super_dead d fun h => hl h.1

theorem returns_writeSuper_of {s : Machine} {m : Raid} {d : ℕ} (hm : s.raidMetadata = some m)
    (h₁ : 1 ≤ d) (h₂ : d ≤ cfg.disks) : Returns (writeSuper cfg d) s () (s.setSuper d m) :=
  returns_writeSuper.2 ⟨m, hm, ⟨h₁, h₂⟩, rfl⟩

/-- `writeback` saves the metadata on the disks that are not dead. -/
theorem writeback_returns (cfg : Config) {s : Machine} {m : Raid} (hm : s.raidMetadata = some m) :
    ∃ s', Returns (writeback cfg) s () s' ∧ Saved cfg (fun d => ¬ m.Dead d) m s s' := by
  refine forRange_saved ?_ hm
  intro i s₁ h₁ h₂ hs
  rw [((returns_dead_disk h₁ h₂).2 ⟨rfl, m, hs, rfl⟩).ifFalse_iff]
  by_cases hd : m.Dead i
  · simp [hd]
  · simp [hd, returns_writeSuper_of hs h₁ h₂]

theorem saved_of_writeback {s s' : Machine} {m : Raid} {u : Unit} (hm : s.raidMetadata = some m)
    (h : Returns (writeback cfg) s u s') : Saved cfg (fun d => ¬ m.Dead d) m s s' := by
  obtain ⟨s₁, hr, hs⟩ := writeback_returns cfg hm
  rwa [(h.unique hr).2]

/-! ### Loading -/

/-- The disk whose copy the loop of `fetch` ends with, when it starts at disk `i` and may still go
on `k` times: the first disk whose own copy does not call the next disk dead. -/
def fetchSourceFrom (copy : ℕ → Raid) : ℕ → ℕ → ℕ
  | i, 0 => i
  | i, k + 1 => if (copy i).diskState i = .DEAD then fetchSourceFrom copy (i + 1) k else i

/-- The disk whose copy `fetch` loads. -/
def fetchSource (n : ℕ) (copy : ℕ → Raid) : ℕ := fetchSourceFrom copy 1 (n - 1)

theorem le_fetchSourceFrom (copy : ℕ → Raid) (i k : ℕ) : i ≤ fetchSourceFrom copy i k := by
  induction k generalizing i with
  | zero => exact le_rfl
  | succ k ih =>
    rw [fetchSourceFrom]
    split
    · exact Nat.le_of_succ_le (ih (i + 1))
    · exact le_rfl

theorem fetchSourceFrom_le (copy : ℕ → Raid) (i k : ℕ) : fetchSourceFrom copy i k ≤ i + k := by
  induction k generalizing i with
  | zero => exact le_rfl
  | succ k ih =>
    rw [fetchSourceFrom]
    split
    · have := ih (i + 1)
      omega
    · omega

/-- The machine after `fetch`. -/
def fetched (cfg : Config) (s : Machine) : Machine :=
  if s.ready then s
  else
    { s with
      raidMetadata := some { s.super (fetchSource cfg.disks s.super) with
        stripe := -1
        parityCached := -1 }
      page := update (filled 0) 1 (s.disk (fetchSource cfg.disks s.super) 1)
      pages := s.pages + 1 }

theorem fetchLoop_returns {s : Machine} {i k : ℕ} (hi : 1 ≤ i) (hk : i + k = cfg.disks) :
    Returns (fetchLoop cfg i (k + 1)) s () { s with
      raidMetadata := some (s.super (fetchSourceFrom s.super i k))
      page := update s.page 1 (s.disk (fetchSourceFrom s.super i k) 1) } := by
  induction k generalizing i s with
  | zero =>
    -- the last round stops either way
    rw [fetchLoop, returns_bind]
    refine ⟨(), _, returns_readSuper.2 ⟨⟨hi, by omega⟩, rfl⟩, ?_⟩
    rw [returns_bind]
    refine ⟨_, _, returns_dead.2 ⟨rfl, _, rfl, rfl⟩, ?_⟩
    simp [fetchLoop, fetchSourceFrom]
  | succ k ih =>
    rw [fetchLoop, returns_bind]
    refine ⟨(), _, returns_readSuper.2 ⟨⟨hi, by omega⟩, rfl⟩, ?_⟩
    rw [returns_bind]
    refine ⟨_, _, returns_dead.2 ⟨rfl, _, rfl, rfl⟩, ?_⟩
    rw [Raid.word_diskState (by omega) (by omega), Int.toNat_natCast]
    simp only [DState.code_eq_one_iff]
    by_cases hd : (s.super i).diskState i = .DEAD
    · have h := ih (s := { s with
        raidMetadata := some (s.super i)
        page := update s.page 1 (s.disk i 1) }) (i := i + 1) (by omega) (by omega)
      simpa [fetchSourceFrom, hd] using h
    · simp [fetchSourceFrom, hd]

/-- `fetch` always succeeds. -/
theorem fetch_returns (hn : 1 ≤ cfg.disks) (s : Machine) :
    Returns (fetch cfg) s () (fetched cfg s) := by
  have hloop : ∀ s : Machine, Returns (fetchLoop cfg 1 cfg.disks) s () { s with
      raidMetadata := some (s.super (fetchSource cfg.disks s.super))
      page := update s.page 1 (s.disk (fetchSource cfg.disks s.super) 1) } := by
    intro s
    obtain ⟨k, hk⟩ : ∃ k, cfg.disks = k + 1 := ⟨cfg.disks - 1, by omega⟩
    have h := fetchLoop_returns (s := s) le_rfl (show 1 + k = cfg.disks by omega)
    rwa [← hk, show k = cfg.disks - 1 by omega] at h
  rw [fetch, fetched, returns_bind]
  refine ⟨_, _, returns_ready.2 ⟨rfl, rfl⟩, ?_⟩
  by_cases hr : s.ready
  · simp [hr]
  · simp only [hr, Bool.false_eq_true, if_false, kalloc, returns_bind, returns_modify]
    refine ⟨(), _, rfl, (), _, rfl, (), _, hloop _, ?_⟩
    simp

/-! ### Initialisation -/

/-- What the branch of the mirrored types makes of the structure. -/
def initMirrorMeta (cfg : Config) (m : Raid) : Raid :=
  { initMirrorFields cfg m with
    dataDisks := fun i => if i < cfg.disks / 2 then i + 1 else m.dataDisks i
    copyDisks := fun i => if i < cfg.disks / 2 then i + 1 + (cfg.disks / 2 : ℕ) else m.copyDisks i }

/-- What the `switch` of `init_raid` makes of the structure. -/
def initTypeMeta (cfg : Config) (t : RaidType) (m : Raid) : Raid :=
  match t with
  | .RAID0_1 => initMirrorMeta cfg { m with stripeCursor := -1 }
  | .RAID1 => initMirrorMeta cfg m
  | .RAID4 =>
    { m with maxDeadDisks := 2, parityDisk := cfg.disks - 1, numOfDisks := m.numOfDisks - 1 }
  | .RAID5 => { m with maxDeadDisks := 2 }
  | .RAID0 => m
  | .other _ => m

/-- What `init_raid` makes of the structure. -/
def initMeta (cfg : Config) (t : RaidType) (m : Raid) : Raid :=
  initTypeMeta cfg t (initCommon cfg t m)

theorem initMirror_returns {s : Machine} {m : Raid} (hm : s.raidMetadata = some m) :
    Returns (initMirror cfg) s () (s.withMeta (initMirrorMeta cfg m)) := by
  -- before round `i` the entries below `i` are set
  let upTo : ℕ → Raid := fun i => { initMirrorFields cfg m with
    dataDisks := fun j => if j < i then j + 1 else m.dataDisks j
    copyDisks := fun j => if j < i then j + 1 + (cfg.disks / 2 : ℕ) else m.copyDisks j }
  let I : ℕ → Machine → Prop := fun i s' => s' = s.withMeta (upTo i)
  have hround : ∀ i s₁, 0 ≤ i → i < 0 + cfg.disks / 2 → I i s₁ →
      ∃ s₂, Returns (do
        setDataDisks cfg i (i + 1)
        setCopyDisks cfg i (i + 1 + (cfg.disks / 2 : ℕ))) s₁ () s₂ ∧ I (i + 1) s₂ := by
    rintro i s₁ - hi rfl
    refine ⟨_, ?_, rfl⟩
    rw [returns_bind]
    refine ⟨(), _, returns_setDataDisks.2 (returns_storeWord.2
      ⟨_, _, rfl, Raid.setWord_dataDisks (by omega) (by omega), rfl⟩), ?_⟩
    refine returns_setCopyDisks.2 (returns_storeWord.2
      ⟨_, _, rfl, Raid.setWord_copyDisks (by omega) (by omega), ?_⟩)
    have hupd : ∀ f : ℕ → ℤ, ∀ c : ℤ,
        (fun j : ℕ => if j < i + 1 then (j : ℤ) + 1 + c else f j) =
          update (fun j : ℕ => if j < i then (j : ℤ) + 1 + c else f j) i (i + 1 + c) := by
      intro f c
      funext j
      rw [update_apply]
      grind
    have hdata := hupd m.dataDisks 0
    simp only [add_zero] at hdata
    simp only [upTo, Int.toNat_natCast, hdata, hupd m.copyDisks]
  rw [initMirror, returns_bind]
  refine ⟨(), _, setMetadata_returns hm, ?_⟩
  obtain ⟨s', hr, hs⟩ := forRange_returns I hround (s := { s with
    raidMetadata := some (initMirrorFields cfg m) }) (by simp [I, upTo, initMirrorFields])
  rw [Nat.zero_add] at hs
  subst hs
  exact hr

theorem initType_returns {s : Machine} {m : Raid} (t : RaidType) (hm : s.raidMetadata = some m) :
    Returns (initType cfg t) s () (s.withMeta (initTypeMeta cfg t m)) := by
  cases t with
  | RAID0_1 =>
    rw [initType, returns_bind]
    exact ⟨(), _, setMetadata_returns hm, initMirror_returns rfl⟩
  | RAID1 => exact initMirror_returns hm
  | RAID4 => exact setMetadata_returns hm
  | RAID5 => exact setMetadata_returns hm
  | RAID0 => simp [initType, initTypeMeta, Machine.withMeta_self hm]
  | other v => simp [initType, initTypeMeta, Machine.withMeta_self hm]

/-- `init_raid` always succeeds, and saves the metadata on every disk. -/
theorem initRaid_returns (hn : 1 ≤ cfg.disks) (t : RaidType) {s : Machine} {m : Raid}
    (hm : (fetched cfg s).raidMetadata = some m) :
    ∃ s', Returns (initRaid cfg t) s 0 s' ∧
      Saved cfg (fun _ => True) (initMeta cfg t m) (fetched cfg s) s' := by
  let s₁ : Machine := { fetched cfg s with raidMetadata := some (initMeta cfg t m) }
  have hbody : ∀ i s, 1 ≤ i → i ≤ cfg.disks → s.raidMetadata = some (initMeta cfg t m) →
      Returns (writeSuper cfg i) s () (if True then s.setSuper i (initMeta cfg t m) else s) := by
    intro i s h₁ h₂ hm
    simpa using returns_writeSuper_of hm h₁ h₂
  obtain ⟨s', hr, hs⟩ := forRange_saved hbody (s := s₁) rfl
  refine ⟨s', ?_, hs.of_setMetadata⟩
  rw [initRaid, returns_bind]
  refine ⟨(), _, fetch_returns hn s, ?_⟩
  rw [returns_bind]
  refine ⟨(), _, setMetadata_returns hm, ?_⟩
  rw [returns_bind]
  refine ⟨(), _, initType_returns t rfl, ?_⟩
  rw [returns_bind]
  exact ⟨(), s', hr, by simp⟩

/-- A machine that has just booted on zero-filled disks. -/
structure Machine.Blank (s : Machine) : Prop where
  raidMetadata : s.raidMetadata = none
  super : ∀ d, s.super d = Raid.zero
  disk : ∀ d j, s.disk d j = 0

/-- The structure that `init_raid` works on when the disks are zero-filled. -/
def freshMeta (cfg : Config) (t : RaidType) : Raid :=
  initMeta cfg t { Raid.zero with stripe := -1, parityCached := -1 }

/-- `init_raid` does not touch the states of the disks. -/
theorem initMeta_diskState (cfg : Config) (t : RaidType) (m : Raid) :
    (initMeta cfg t m).diskState = m.diskState := by
  cases t <;> rfl

theorem not_dead_freshMeta (cfg : Config) (t : RaidType) (d : ℕ) : ¬ (freshMeta cfg t).Dead d := by
  rw [Raid.Dead, freshMeta, initMeta_diskState]
  simp [Raid.zero]

/-- The machine after the first `init_raid` on zero-filled disks. -/
structure Initialised (cfg : Config) (t : RaidType) (s : Machine) : Prop where
  raidMetadata : s.raidMetadata = some (freshMeta cfg t)
  super : ∀ d, 1 ≤ d → d ≤ cfg.disks → s.super d = freshMeta cfg t
  disk : ∀ d j, 2 ≤ j → s.disk d j = 0

theorem initRaid_blank (hn : 1 ≤ cfg.disks) (t : RaidType) {s : Machine} (hs : s.Blank) :
    ∃ s', Returns (initRaid cfg t) s 0 s' ∧ Initialised cfg t s' := by
  have hready : s.ready = false := by simp [Machine.ready, hs.raidMetadata]
  have hm : (fetched cfg s).raidMetadata =
      some { Raid.zero with stripe := -1, parityCached := -1 } := by
    simp [fetched, hready, hs.super]
  obtain ⟨s', hr, hsaved⟩ := initRaid_returns hn t hm
  refine ⟨s', hr, hsaved.raidMetadata, ?_, ?_⟩
  · intro d h₁ h₂
    exact hsaved.super_live d h₁ h₂ trivial
  · intro d j hj
    rw [hsaved.disk d j hj]
    simp [fetched, hready, hs.disk]

theorem exec_initRaid_blank (hn : 1 ≤ cfg.disks) {t : RaidType} (ht : ∀ v, t ≠ .other v)
    {s : Machine} (hs : s.Blank) :
    ∃ s', Returns (exec cfg (.initRaid t.code)) s { code := 0 } s' ∧ Initialised cfg t s' := by
  obtain ⟨s', hr, hs'⟩ := initRaid_blank hn t hs
  refine ⟨s', returns_exec_initRaid.2 ⟨0, ?_, rfl⟩, hs'⟩
  rwa [ofInt_code ht]

/-! ### Access -/

/-- An access is to a block that the guard accepts, or it is rejected. -/
theorem accepted_or_rejected (s : Machine) (x : ℤ) (data : Option Block) :
    (∃ m buf, ∃ b : ℕ, s.raidMetadata = some m ∧ data = some buf ∧ x = b ∧ m.Accepts b) ∨
      ¬ ∃ m buf, s.raidMetadata = some m ∧ data = some buf ∧ m.Accepts x := by
  rcases Classical.em (∃ m buf, s.raidMetadata = some m ∧ data = some buf ∧ m.Accepts x) with
    ⟨m, buf, hm, hdata, hx⟩ | hrej
  · have hxb : x = x.toNat := (Int.toNat_of_nonneg hx.2.1).symm
    exact .inl ⟨m, buf, x.toNat, hm, hdata, hxb, hxb ▸ hx⟩
  · exact .inr hrej

/-- An access that the guard rejects. -/
theorem accessRaid_rejected {odd : ℕ} {x : ℤ} {data : Option Block} {s s' : Machine}
    {r : ℤ × Option Block}
    (h : ¬ ∃ m buf, s.raidMetadata = some m ∧ data = some buf ∧ m.Accepts x) :
    Returns (accessRaid cfg odd x data) s r s' ↔ r = (-1, data) ∧ s' = s := by
  rw [accessRaid, get_returns.bind_iff]
  cases hm : s.raidMetadata with
  | none => simp
  | some m =>
    cases data with
    | none => simp
    | some buf =>
      have hx : ¬ m.Accepts x := fun hx => h ⟨m, buf, hm, rfl, hx⟩
      simp [hx]

/-- An access that the guard accepts is a call through the table. -/
theorem returns_accessRaid {odd : ℕ} {x : ℤ} {buf : Block} {s s' : Machine} {m : Raid}
    {r : ℤ × Option Block} (hm : s.raidMetadata = some m) (hx : m.Accepts x) :
    Returns (accessRaid cfg odd x (some buf)) s r s' ↔
      ∃ v, Returns (raidRw cfg (m.type.code * 2 % 2 ^ 32 + odd) x.toNat buf) s v s' ∧
        r = (v.1, some v.2) := by
  rw [accessRaid, get_returns.bind_iff]
  simp only [hm, hx, if_true, returns_bind_pure]

/-! ### Failure and repair -/

/-- What `disk_fail_raid` does to the state of disk `d` and to the failure count. -/
def markDead (m : Raid) (d : ℕ) : Raid :=
  { m with
    diskState := update m.diskState (d - 1) .DEAD
    numDeadDisks := uintSucc m.numDeadDisks }

/-- What `disk_repaired_raid` does to the state of disk `d` and to the failure count. -/
def markRepaired (m : Raid) (d : ℕ) : Raid :=
  { m with
    diskState := update m.diskState (d - 1) .REPAIRED
    numDeadDisks := uintPred m.numDeadDisks }

theorem dead_markDead {m : Raid} {d e : ℕ} (hd : 1 ≤ d) (he : 1 ≤ e) :
    (markDead m d).Dead e ↔ e = d ∨ m.Dead e := by
  unfold Raid.Dead markDead
  simp only [update_apply]
  split
  case isTrue h => simp [show e = d by omega]
  case isFalse h => simp [show e ≠ d by omega]

theorem dead_markRepaired {m : Raid} {d e : ℕ} (hd : 1 ≤ d) (he : 1 ≤ e) :
    (markRepaired m d).Dead e ↔ e ≠ d ∧ m.Dead e := by
  unfold Raid.Dead markRepaired
  simp only [update_apply]
  split
  case isTrue h => simp [show e = d by omega]
  case isFalse h => simp [show e ≠ d by omega]

/-- The machine is ready and `x` is the number of one of its disks. -/
def Addresses (cfg : Config) (s : Machine) (x : ℤ) (m : Raid) (d : ℕ) : Prop :=
  s.raidMetadata = some m ∧ m.raidInitialized = true ∧ x = d ∧ 1 ≤ d ∧ d ≤ cfg.disks

/-- The guard of `disk_fail_raid` and `disk_repaired_raid`. -/
theorem addresses_iff {s : Machine} {x : ℤ} :
    (∃ m d, Addresses cfg s x m d) ↔ ¬ ((!s.ready) = true ∨ x < 1 ∨ (cfg.disks : ℤ) < x) := by
  unfold Addresses Machine.ready
  cases hm : s.raidMetadata with
  | none => simp
  | some m =>
    constructor
    · rintro ⟨m', d, hm', hi, rfl, h₁, h₂⟩
      cases hm'
      simp [hi]
      omega
    · intro h
      have hi : m.raidInitialized = true := by
        by_contra hi
        exact h (.inl (by simpa using hi))
      exact ⟨m, x.toNat, rfl, hi, by omega, by omega, by omega⟩

/-- The end of both calls. -/
theorem returns_rolesThenSave {roles : Kernel Unit} {s s' : Machine} {r : ℤ} :
    Returns (do roles; writeback cfg; pure 0) s r s' ↔
      r = 0 ∧ ∃ s₁, Returns roles s () s₁ ∧ Returns (writeback cfg) s₁ () s' := by
  simp only [returns_bind, returns_pure]
  constructor
  · rintro ⟨_, s₁, h₁, _, s₂, h₂, rfl, rfl⟩
    exact ⟨rfl, s₁, h₁, h₂⟩
  · rintro ⟨rfl, s₁, h₁, h₂⟩
    exact ⟨(), s₁, h₁, (), s', h₂, rfl, rfl⟩

variable {s s' : Machine} {x r : ℤ} {m : Raid} {d : ℕ}

theorem diskFailRaid_refused (h : ¬ ∃ m d, Addresses cfg s x m d) :
    Returns (diskFailRaid cfg x) s r s' ↔ r = -1 ∧ s' = s := by
  rw [addresses_iff, not_not] at h
  rw [diskFailRaid, (returns_ready.2 ⟨rfl, rfl⟩).bind_iff, if_pos h, returns_pure]

/-- **All that `disk_fail_raid` can do to a disk of the array**: find it already dead, or mark it
dead, change the roles and save. -/
theorem returns_diskFailRaid (h : Addresses cfg s x m d) :
    Returns (diskFailRaid cfg x) s r s' ↔ r = 0 ∧
      (m.Dead d ∧ s' = s ∨ ¬ m.Dead d ∧ ∃ s₁,
        Returns (failRoles cfg d) (s.withMeta (markDead m d)) () s₁ ∧
          Returns (writeback cfg) s₁ () s') := by
  have hg := addresses_iff.1 ⟨m, d, h⟩
  obtain ⟨hm, -, rfl, h₁, h₂⟩ := h
  have hidx : ((d : ℤ) - 1).toNat = d - 1 := by omega
  rw [diskFailRaid, (returns_ready.2 ⟨rfl, rfl⟩).bind_iff, if_neg hg,
    ((returns_dead_disk h₁ h₂).2 ⟨rfl, m, hm, rfl⟩).bind_iff, hidx]
  by_cases hd : m.Dead d
  · simp [hd]
  · rw [if_neg (by simpa using hd), (setMetadata_returns hm).bind_iff, returns_rolesThenSave]
    simp [hd, markDead]

theorem diskRepairedRaid_refused (h : ¬ ∃ m d, Addresses cfg s x m d) :
    Returns (diskRepairedRaid cfg x) s r s' ↔ r = -1 ∧ s' = s := by
  rw [addresses_iff, not_not] at h
  rw [diskRepairedRaid, (returns_ready.2 ⟨rfl, rfl⟩).bind_iff, if_pos h, returns_pure]

/-- **All that `disk_repaired_raid` can do to a disk of the array**: find that it is not dead, or
mark it repaired, change the roles and save. -/
theorem returns_diskRepairedRaid (h : Addresses cfg s x m d) :
    Returns (diskRepairedRaid cfg x) s r s' ↔ r = 0 ∧
      (¬ m.Dead d ∧ s' = s ∨ m.Dead d ∧ ∃ s₁,
        Returns (repairRoles cfg d) (s.withMeta (markRepaired m d)) () s₁ ∧
          Returns (writeback cfg) s₁ () s') := by
  have hg := addresses_iff.1 ⟨m, d, h⟩
  obtain ⟨hm, -, rfl, h₁, h₂⟩ := h
  have hidx : ((d : ℤ) - 1).toNat = d - 1 := by omega
  rw [diskRepairedRaid, (returns_ready.2 ⟨rfl, rfl⟩).bind_iff, if_neg hg,
    ((returns_dead_disk h₁ h₂).2 ⟨rfl, m, hm, rfl⟩).bind_iff, hidx]
  by_cases hd : m.Dead d
  · rw [if_pos (by simpa using hd), (setMetadata_returns hm).bind_iff, returns_rolesThenSave]
    simp [hd, markRepaired]
  · simp [hd]

/-- A failure does nothing, or finds a disk that is not dead. -/
theorem diskFailRaid_idle_or (s : Machine) (x : ℤ) :
    (∃ r, Returns (exec cfg (.diskFailRaid x)) s r s) ∨
      ∃ m d, Addresses cfg s x m d ∧ ¬ m.Dead d := by
  rcases Classical.em (∃ m d, Addresses cfg s x m d) with ⟨m, d, ha⟩ | ha
  · rcases Classical.em (m.Dead d) with hd | hd
    · have hidle := (returns_diskFailRaid ha).2 ⟨rfl, .inl ⟨hd, rfl⟩⟩
      exact .inl ⟨_, returns_exec_diskFailRaid.2 ⟨0, hidle, rfl⟩⟩
    · exact .inr ⟨m, d, ha, hd⟩
  · have hidle := (diskFailRaid_refused ha).2 ⟨rfl, rfl⟩
    exact .inl ⟨_, returns_exec_diskFailRaid.2 ⟨-1, hidle, rfl⟩⟩

/-- A repair does nothing, or finds a dead disk. -/
theorem diskRepairedRaid_idle_or (s : Machine) (x : ℤ) :
    (∃ r, Returns (exec cfg (.diskRepairedRaid x)) s r s) ∨
      ∃ m d, Addresses cfg s x m d ∧ m.Dead d := by
  rcases Classical.em (∃ m d, Addresses cfg s x m d) with ⟨m, d, ha⟩ | ha
  · rcases Classical.em (m.Dead d) with hd | hd
    · exact .inr ⟨m, d, ha, hd⟩
    · have hidle := (returns_diskRepairedRaid ha).2 ⟨rfl, .inl ⟨hd, rfl⟩⟩
      exact .inl ⟨_, returns_exec_diskRepairedRaid.2 ⟨0, hidle, rfl⟩⟩
  · have hidle := (diskRepairedRaid_refused ha).2 ⟨rfl, rfl⟩
    exact .inl ⟨_, returns_exec_diskRepairedRaid.2 ⟨-1, hidle, rfl⟩⟩

/-- For the types without roles a failure is the mark and the save. -/
theorem failRoles_plain (hm : s.raidMetadata = some m) (hp : m.type.plain = true) :
    Returns (failRoles cfg x) s () s := by
  rw [failRoles, (metadata_returns hm).bind_iff]
  simp [hp]

theorem repairRoles_plain (hm : s.raidMetadata = some m) (hp : m.type.plain = true) :
    Returns (repairRoles cfg x) s () s := by
  rw [repairRoles, (metadata_returns hm).bind_iff]
  simp [hp]

section

variable (h : Addresses cfg s x m d) (hp : m.type.plain = true)

include h hp

/-- A failure of a disk that is not dead, for the types without roles. -/
theorem diskFailRaid_plain (hd : ¬ m.Dead d) (hr : Returns (diskFailRaid cfg x) s r s') :
    r = 0 ∧ Saved cfg (fun e => ¬ (markDead m d).Dead e) (markDead m d) s s' := by
  obtain ⟨rfl, ⟨hd', -⟩ | ⟨-, s₁, hroles, hwb⟩⟩ := (returns_diskFailRaid h).1 hr
  · exact absurd hd' hd
  · have hp₁ : (markDead m d).type.plain = true := hp
    obtain ⟨-, rfl⟩ := hroles.unique (failRoles_plain (m := markDead m d) rfl hp₁)
    exact ⟨rfl, (saved_of_writeback rfl hwb).of_setMetadata⟩

theorem diskFailRaid_plain_returns (hd : ¬ m.Dead d) :
    ∃ s', Returns (diskFailRaid cfg x) s 0 s' := by
  have hp₁ : (markDead m d).type.plain = true := hp
  obtain ⟨s', hwb, -⟩ := writeback_returns cfg
    (s := s.withMeta (markDead m d)) rfl
  exact ⟨s', (returns_diskFailRaid h).2
    ⟨rfl, .inr ⟨hd, _, failRoles_plain (m := markDead m d) rfl hp₁, hwb⟩⟩⟩

/-- A repair of a dead disk, for the types without roles. -/
theorem diskRepairedRaid_plain (hd : m.Dead d) (hr : Returns (diskRepairedRaid cfg x) s r s') :
    r = 0 ∧ Saved cfg (fun e => ¬ (markRepaired m d).Dead e) (markRepaired m d) s s' := by
  obtain ⟨rfl, ⟨hd', -⟩ | ⟨-, s₁, hroles, hwb⟩⟩ := (returns_diskRepairedRaid h).1 hr
  · exact absurd hd hd'
  · have hp₁ : (markRepaired m d).type.plain = true := hp
    obtain ⟨-, rfl⟩ := hroles.unique (repairRoles_plain (m := markRepaired m d) rfl hp₁)
    exact ⟨rfl, (saved_of_writeback rfl hwb).of_setMetadata⟩

end

/-! ### A machine to compute with -/

/-- `n` disks of eight blocks each. -/
def smallConfig (n : ℕ) : Config := ⟨n, 8192, by decide, by decide⟩

/-- A machine that has just booted on zero-filled disks. -/
def blankMachine : Machine where
  raidMetadata := none
  page := fun _ _ => 0
  super := fun _ => Raid.zero
  disk := fun _ _ _ => 0
  kmem := fun _ => 0
  pages := 0

theorem blankMachine_blank : blankMachine.Blank := ⟨rfl, fun _ => rfl, fun _ _ => rfl⟩

/-- A block all of whose bytes are `v`. -/
def bytes (v : ℕ) : Block := (fun _ => Bits.ofNat 8 v, fun _ => Bits.ofNat 8 v)

end RaidSystem
