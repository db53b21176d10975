/-
**What the calls do to the metadata and their copies.**

The metadata exist once in memory and once on every disk.  This module says, for each call, what
becomes of all of them: `MetaStep` has one case for each thing that can happen, and
`metaStep_of_returns` shows that there are no others.  What holds of the metadata along a run is
then proved by looking at these cases, without going back to the source.

Main definitions:

* `Raid.core` — the metadata without the cache and without `parity_disk`, which an access changes
  and does not save;
* `Raid.shape` — the fields that decide how an access proceeds;
* `MetaStep` — the things that can happen;
* `AllMeta W` — the metadata in memory and all copies satisfy `W`.

Main results:

* `metaStep_of_returns` — **all that a call can do to the metadata and their copies**;
* `AllMeta.step` — what is to be shown for `AllMeta W` to be kept by a call.
-/

import RaidSystem.Frames

set_option autoImplicit false

namespace RaidSystem

open Prog

variable {cfg : Config} {s s' : Machine} {m m' : Raid} {r : Reply} {c : Call} {d i : ℕ}

/-! ### The search of `fetch` -/

/-- Disk `i` is the first whose copy does not call the disk after it dead, or the last disk if
there is none. -/
def StopsAt (cfg : Config) (copy : ℕ → Raid) (i : ℕ) : Prop :=
  1 ≤ i ∧ i ≤ cfg.disks ∧ (∀ j, 1 ≤ j → j < i → (copy j).diskState j = .DEAD) ∧
    (i < cfg.disks → (copy i).diskState i ≠ .DEAD)

theorem fetchSourceFrom_dead (copy : ℕ → Raid) (i k j : ℕ) (h₁ : i ≤ j)
    (h₂ : j < fetchSourceFrom copy i k) : (copy j).diskState j = .DEAD := by
  induction k generalizing i with
  | zero => exact absurd (Nat.lt_of_le_of_lt h₁ h₂) (Nat.lt_irrefl i)
  | succ k ih =>
    rw [fetchSourceFrom] at h₂
    split at h₂
    case isTrue hd =>
      rcases Nat.eq_or_lt_of_le h₁ with rfl | h₁
      · exact hd
      · exact ih (i + 1) h₁ h₂
    case isFalse => exact absurd (Nat.lt_of_le_of_lt h₁ h₂) (Nat.lt_irrefl i)

theorem fetchSourceFrom_stop (copy : ℕ → Raid) (i k : ℕ) (h : fetchSourceFrom copy i k < i + k) :
    (copy (fetchSourceFrom copy i k)).diskState (fetchSourceFrom copy i k) ≠ .DEAD := by
  induction k generalizing i with
  | zero => exact absurd h (Nat.lt_irrefl i)
  | succ k ih =>
    rw [fetchSourceFrom] at h ⊢
    split
    case isTrue hd =>
      rw [if_pos hd] at h
      exact ih (i + 1) (by omega)
    case isFalse hd => exact hd

theorem stopsAt_fetchSource (hn : 1 ≤ cfg.disks) (copy : ℕ → Raid) :
    StopsAt cfg copy (fetchSource cfg.disks copy) := by
  have hle := fetchSourceFrom_le copy 1 (cfg.disks - 1)
  refine ⟨le_fetchSourceFrom copy 1 _, ?_, ?_, ?_⟩
  · rw [fetchSource]
    omega
  · intro j h₁ h₂
    exact fetchSourceFrom_dead copy 1 _ j h₁ h₂
  · intro h
    rw [fetchSource] at h ⊢
    exact fetchSourceFrom_stop copy 1 _ (by omega)

/-- The search stops at one disk only. -/
theorem StopsAt.unique {copy : ℕ → Raid} {j : ℕ} (hi : StopsAt cfg copy i)
    (hj : StopsAt cfg copy j) : i = j := by
  obtain ⟨hi₁, hi₂, hi₃, hi₄⟩ := hi
  obtain ⟨hj₁, hj₂, hj₃, hj₄⟩ := hj
  rcases Nat.lt_trichotomy i j with h | h | h
  · exact absurd (hj₃ i hi₁ h) (hi₄ (by omega))
  · exact h
  · exact absurd (hi₃ j hj₁ h) (hj₄ (by omega))

/-- `fetch` leaves metadata in memory: those that were there, or those of a copy without what they
say about the cache. -/
theorem fetched_raidMetadata (hn : 1 ≤ cfg.disks) (s : Machine) :
    ∃ m, (fetched cfg s).raidMetadata = some m ∧
      (s.raidMetadata = some m ∨ ∃ e, 1 ≤ e ∧ e ≤ cfg.disks ∧
        m = { s.super e with stripe := -1, parityCached := -1 }) := by
  rw [fetched]
  split
  case isTrue hready =>
    unfold Machine.ready at hready
    cases hm : s.raidMetadata with
    | none => simp [hm] at hready
    | some m => exact ⟨m, rfl, .inl rfl⟩
  case isFalse =>
    have hstop := stopsAt_fetchSource hn s.super
    exact ⟨_, rfl, .inr ⟨_, hstop.1, hstop.2.1, rfl⟩⟩

theorem fetched_super (cfg : Config) (s : Machine) : (fetched cfg s).super = s.super := by
  rw [fetched]
  split <;> rfl

theorem fetched_disk (cfg : Config) (s : Machine) : (fetched cfg s).disk = s.disk := by
  rw [fetched]
  split <;> rfl

theorem fetched_kmem (cfg : Config) (s : Machine) : (fetched cfg s).kmem = s.kmem := by
  rw [fetched]
  split <;> rfl

/-! ### Reading and destroying the metadata -/

theorem infoRaid_returns (hn : 1 ≤ cfg.disks) (s : Machine) :
    ∃ v, Returns (infoRaid cfg) s v (fetched cfg s) := by
  obtain ⟨m, hm, -⟩ := fetched_raidMetadata hn s
  simp only [infoRaid, (fetch_returns hn s).bind_iff, (metadata_returns hm).bind_iff]
  split
  · exact ⟨_, returns_pure.2 ⟨rfl, rfl⟩⟩
  · exact ⟨_, returns_pure.2 ⟨rfl, rfl⟩⟩

theorem infoRaid_state (hn : 1 ≤ cfg.disks) {v : ℤ × Option (ℕ × ℕ × ℕ)}
    (h : Returns (infoRaid cfg) s v s') : s' = fetched cfg s := by
  obtain ⟨w, hw⟩ := infoRaid_returns hn s
  exact (h.unique hw).2

/-- `destroy_raid` on metadata in memory clears every copy. -/
theorem destroy_ready (cfg : Config) (hs : s.ready = true) : ∃ s', Returns (do
      if ← ready then
        modify fun s => { s with raidMetadata := some Raid.zero, page := filled 0 }
        writeback cfg
        kfree
        modify fun s => { s with raidMetadata := none }
        pure 0
      else pure (0 : ℤ)) s 0 s' ∧ (∀ d j, 2 ≤ j → s'.disk d j = s.disk d j) ∧
    s'.pages = s.pages - 1 ∧ s'.raidMetadata = none ∧
    ∀ e, 1 ≤ e → e ≤ cfg.disks → s'.super e = Raid.zero := by
  obtain ⟨s₁, hsave, hsaved⟩ := writeback_returns cfg
    (s := { s with raidMetadata := some Raid.zero, page := filled 0 }) rfl
  refine ⟨{ s₁ with page := filled 1, pages := s₁.pages - 1, raidMetadata := none }, ?_, ?_, ?_,
    rfl, ?_⟩
  · rw [(returns_ready.2 ⟨rfl, rfl⟩).bind_iff, if_pos hs,
      modify_returns.bind_iff, hsave.bind_iff, kfree,
      modify_returns.bind_iff, modify_returns.bind_iff]
    exact returns_pure.2 ⟨rfl, rfl⟩
  · exact hsaved.disk
  · exact congrArg (· - 1) hsaved.pages
  · intro e h₁ h₂
    refine hsaved.super_live e h₁ h₂ ?_
    simp [Raid.Dead, Raid.zero]

/-- **All that `destroy_raid` can do**: clear every copy and forget the metadata; or, finding no
array in memory and none on disk `1`, leave the copy of disk `1` in memory. -/
theorem destroyRaid_returns (hn : 1 ≤ cfg.disks) (s : Machine) :
    ∃ s', Returns (destroyRaid cfg) s 0 s' ∧ (∀ d j, 2 ≤ j → s'.disk d j = s.disk d j) ∧
      ((s.ready = true ∨ (s.super 1).raidInitialized = true) ∧
          s'.pages = (if s.ready then s.pages else s.pages + 1) - 1 ∧ s'.raidMetadata = none ∧
          (∀ e, 1 ≤ e → e ≤ cfg.disks → s'.super e = Raid.zero) ∨
        s.ready = false ∧ (s.super 1).raidInitialized = false ∧ s'.pages = s.pages + 1 ∧
          s'.raidMetadata = some (s.super 1) ∧ s'.super = s.super) := by
  have hready : Returns ready s s.ready s := returns_ready.2 ⟨rfl, rfl⟩
  cases hs : s.ready with
  | true =>
    obtain ⟨s', hr, hdisk, hcleared⟩ := destroy_ready cfg hs
    exact ⟨s', returns_bind.2 ⟨(), s, hready.ifFalse_iff.2 (.inl ⟨hs, rfl⟩), hr⟩, hdisk,
      .inl ⟨.inl rfl, hcleared⟩⟩
  | false =>
    -- the copy of disk `1` is loaded
    let s₁ : Machine := { s with
      raidMetadata := some (s.super 1)
      page := Function.update (filled 5) 1 (s.disk 1 1)
      pages := s.pages + 1 }
    have hload : Returns (ifFalse ready (do kalloc; readSuper cfg 1)) s () s₁ := by
      refine hready.ifFalse_iff.2 (.inr ⟨hs, ?_⟩)
      rw [kalloc, modify_returns.bind_iff]
      exact returns_readSuper.2 ⟨⟨le_rfl, hn⟩, rfl⟩
    cases hinit : (s.super 1).raidInitialized with
    | true =>
      obtain ⟨s', hr, hdisk, hcleared⟩ := destroy_ready cfg (s := s₁) hinit
      exact ⟨s', returns_bind.2 ⟨(), s₁, hload, hr⟩, hdisk, .inl ⟨.inr rfl, hcleared⟩⟩
    | false =>
      refine ⟨s₁, returns_bind.2 ⟨(), s₁, hload, ?_⟩, fun _ _ _ => rfl,
        .inr ⟨rfl, rfl, rfl, rfl, rfl⟩⟩
      have hnot : ¬ s₁.ready = true := by simp [s₁, Machine.ready, hinit]
      rw [(returns_ready.2 ⟨rfl, rfl⟩).bind_iff, if_neg hnot]
      exact returns_pure.2 ⟨rfl, rfl⟩

/-! ### Accesses and roles -/

/-- The metadata without the cache and `parity_disk`. -/
def Raid.core (m : Raid) : Raid := { m with parityDisk := 0, stripe := 0, parityCached := 0 }

/-- When only the fields that an access changes have changed, the metadata of before are at hand. -/
theorem exists_of_core (hm : s'.raidMetadata = some m')
    (hcore : s'.raidMetadata.map Raid.core = s.raidMetadata.map Raid.core) :
    ∃ m, s.raidMetadata = some m ∧ m.core = m'.core := by
  rw [hm, Option.map_some] at hcore
  exact Option.map_eq_some_iff.1 hcore.symm

theorem Raid.dead_of_core (h : m.core = m'.core) : m.Dead d ↔ m'.Dead d := by
  have hstate : m.core.diskState = m'.core.diskState := by rw [h]
  exact Eq.congr_left (congrFun hstate (d - 1))

theorem accessFrame_core :
    AccessFrame fun s : Machine => (s.super, s.raidMetadata.map Raid.core) where
  disk _ _ _ _ := rfl
  page _ _ := rfl
  cache s m k q p hm := by
    rw [hm]
    rfl

theorem roleFrame_super : RoleFrame fun s : Machine => (s.super, s.raidMetadata.isSome) := by
  intro s m data copy r c p hm
  simp [hm]

/-- The fields that decide how an access proceeds and that neither a failure nor a repair
changes. -/
def Raid.shape (m : Raid) : Bool × RaidType × ℕ × ℤ × ℤ :=
  (m.raidInitialized, m.type, m.numOfDisks, m.stripe, m.parityCached)

theorem roleFrame_shape : RoleFrame fun s : Machine => s.raidMetadata.map Raid.shape := by
  intro s m data copy r c p hm
  exact (congrArg (Option.map Raid.shape) hm).symm

/-- A change of roles keeps the shape. -/
theorem shape_of_roles {roles : Kernel Unit} {s₁ : Machine}
    (hroles : Preserves (fun s => s.raidMetadata.map Raid.shape) roles)
    (h : Returns roles (s.withMeta m) () s₁) (hm' : s₁.raidMetadata = some m') :
    m'.shape = m.shape := by
  have hshape : s₁.raidMetadata.map Raid.shape = some m.shape := hroles _ _ _ h
  rw [hm'] at hshape
  exact Option.some_inj.1 hshape

theorem initMeta_raidInitialized (cfg : Config) (t : RaidType) (m : Raid) :
    (initMeta cfg t m).raidInitialized = true := by
  cases t <;> rfl

/-- `init_raid` sets the count to zero. -/
theorem initMeta_numDeadDisks (cfg : Config) (t : RaidType) (m : Raid) :
    (initMeta cfg t m).numDeadDisks = 0 := by
  cases t <;> rfl

theorem initMeta_type (cfg : Config) (t : RaidType) (m : Raid) : (initMeta cfg t m).type = t := by
  cases t <;> rfl

theorem freshMeta_type (cfg : Config) (t : RaidType) : (freshMeta cfg t).type = t :=
  initMeta_type cfg t _

theorem initMeta_numOfDisks (cfg : Config) (t : RaidType) (m : Raid) :
    (initMeta cfg t m).numOfDisks = numOfDisksOf t cfg.disks := by
  cases t <;> rfl

/-! ### The things that can happen -/

/-- What a call does to the metadata in memory and on the disks. -/
inductive MetaStep (cfg : Config) (s : Machine) : Call → Machine → Prop
  /-- A refused call, or one that has nothing to do with the metadata. -/
  | nothing {c : Call} {s' : Machine} (hm : s'.raidMetadata = s.raidMetadata)
      (hsuper : s'.super = s.super) : MetaStep cfg s c s'
  | access {c : Call} {s' : Machine} (hc : c.isAccess = true)
      (hcore : s'.raidMetadata.map Raid.core = s.raidMetadata.map Raid.core)
      (hsuper : s'.super = s.super) : MetaStep cfg s c s'
  | init {x : ℤ} {m : Raid} {s' : Machine} (hm : (fetched cfg s).raidMetadata = some m)
      (hm' : s'.raidMetadata = some (initMeta cfg (.ofInt x) m))
      (hsuper : ∀ e, 1 ≤ e → e ≤ cfg.disks → s'.super e = initMeta cfg (.ofInt x) m) :
      MetaStep cfg s (.initRaid x) s'
  | fail {x : ℤ} {m m' : Raid} {d : ℕ} {s₁ s' : Machine} (ha : Addresses cfg s x m d)
      (hd : ¬ m.Dead d)
      (hroles : Returns (failRoles cfg d) { s with raidMetadata := some (markDead m d) } () s₁)
      (hm' : s₁.raidMetadata = some m') (hsuper : s₁.super = s.super)
      (hsaved : Saved cfg (fun e => ¬ m'.Dead e) m' s₁ s') : MetaStep cfg s (.diskFailRaid x) s'
  | repair {x : ℤ} {m m' : Raid} {d : ℕ} {s₁ s' : Machine} (ha : Addresses cfg s x m d)
      (hd : m.Dead d)
      (hroles : Returns (repairRoles cfg d) { s with raidMetadata := some (markRepaired m d) }
        () s₁)
      (hm' : s₁.raidMetadata = some m') (hsuper : s₁.super = s.super)
      (hsaved : Saved cfg (fun e => ¬ m'.Dead e) m' s₁ s') :
      MetaStep cfg s (.diskRepairedRaid x) s'
  | load : MetaStep cfg s .infoRaid (fetched cfg s)
  | destroy {s' : Machine} (hm : s'.raidMetadata = none)
      (hsuper : ∀ e, 1 ≤ e → e ≤ cfg.disks → s'.super e = Raid.zero) :
      MetaStep cfg s .destroyRaid s'
  | destroyNothing {s' : Machine} (hm : s'.raidMetadata = some (s.super 1))
      (hsuper : s'.super = s.super) : MetaStep cfg s .destroyRaid s'
  | reboot {s' : Machine} (hm : s'.raidMetadata = none) (hsuper : s'.super = s.super) :
      MetaStep cfg s .reboot s'

/-- The end of a failure or a repair. -/
theorem saved_of_roles {roles : Kernel Unit} {s₁ : Machine}
    (hroles : Preserves (fun s => (s.super, s.raidMetadata.isSome)) roles)
    (h₁ : Returns roles (s.withMeta m) () s₁) (h₂ : Returns (writeback cfg) s₁ () s') :
    ∃ m', s₁.raidMetadata = some m' ∧ s₁.super = s.super ∧
      Saved cfg (fun e => ¬ m'.Dead e) m' s₁ s' := by
  obtain ⟨hsuper, hsome⟩ := Prod.mk.inj (hroles _ _ _ h₁)
  obtain ⟨m', hm'⟩ := Option.isSome_iff_exists.1 hsome
  exact ⟨m', hm', hsuper, saved_of_writeback hm' h₂⟩

/-- What `init_raid` makes of the metadata, it saves on every disk. -/
theorem exec_initRaid_cases (hn : 1 ≤ cfg.disks) {x : ℤ}
    (h : Returns (exec cfg (.initRaid x)) s r s') :
    ∃ m, (fetched cfg s).raidMetadata = some m ∧
      Saved cfg (fun _ => True) (initMeta cfg (.ofInt x) m) (fetched cfg s) s' := by
  obtain ⟨_, hinit, -⟩ := returns_exec_initRaid.1 h
  obtain ⟨m, hm, -⟩ := fetched_raidMetadata hn s
  obtain ⟨s₁, hr, hsaved⟩ := initRaid_returns hn (.ofInt x) hm
  obtain ⟨-, rfl⟩ := hinit.unique hr
  exact ⟨m, hm, hsaved⟩

/-- An access leaves the copies alone, and of the metadata all but the cache and `parity_disk`. -/
theorem core_of_access (hc : c.isAccess = true) (h : Returns (exec cfg c) s r s') :
    s'.super = s.super ∧ s'.raidMetadata.map Raid.core = s.raidMetadata.map Raid.core := by
  cases c with
  | readRaid x data =>
    obtain ⟨_, hread, -⟩ := returns_exec_readRaid.1 h
    exact Prod.mk.inj (accessFrame_core.accessRaid _ _ _ hread)
  | writeRaid x data =>
    obtain ⟨_, hwrite, -⟩ := returns_exec_writeRaid.1 h
    exact Prod.mk.inj (accessFrame_core.accessRaid _ _ _ hwrite)
  | _ => cases hc

/-- **All that a call can do to the metadata and their copies.** -/
theorem metaStep_of_returns (hn : 1 ≤ cfg.disks) (h : Returns (exec cfg c) s r s') :
    MetaStep cfg s c s' := by
  cases c with
  | initRaid x =>
    obtain ⟨m, hm, hsaved⟩ := exec_initRaid_cases hn h
    exact .init hm hsaved.raidMetadata fun e h₁ h₂ => hsaved.super_live e h₁ h₂ trivial
  | readRaid x data =>
    obtain ⟨hsuper, hcore⟩ := core_of_access rfl h
    exact .access rfl hcore hsuper
  | writeRaid x data =>
    obtain ⟨hsuper, hcore⟩ := core_of_access rfl h
    exact .access rfl hcore hsuper
  | diskFailRaid x =>
    obtain ⟨_, hfail, -⟩ := returns_exec_diskFailRaid.1 h
    rcases Classical.em (∃ m d, Addresses cfg s x m d) with ⟨m, d, ha⟩ | ha
    · rcases ((returns_diskFailRaid ha).1 hfail).2 with ⟨-, rfl⟩ | ⟨hd, s₁, h₁, h₂⟩
      · exact .nothing rfl rfl
      · obtain ⟨m', hm', hsuper, hsaved⟩ := saved_of_roles roleFrame_super.failRoles h₁ h₂
        exact .fail ha hd h₁ hm' hsuper hsaved
    · obtain ⟨-, rfl⟩ := (diskFailRaid_refused ha).1 hfail
      exact .nothing rfl rfl
  | diskRepairedRaid x =>
    obtain ⟨_, hrep, -⟩ := returns_exec_diskRepairedRaid.1 h
    rcases Classical.em (∃ m d, Addresses cfg s x m d) with ⟨m, d, ha⟩ | ha
    · rcases ((returns_diskRepairedRaid ha).1 hrep).2 with ⟨-, rfl⟩ | ⟨hd, s₁, h₁, h₂⟩
      · exact .nothing rfl rfl
      · obtain ⟨m', hm', hsuper, hsaved⟩ := saved_of_roles roleFrame_super.repairRoles h₁ h₂
        exact .repair ha hd h₁ hm' hsuper hsaved
    · obtain ⟨-, rfl⟩ := (diskRepairedRaid_refused ha).1 hrep
      exact .nothing rfl rfl
  | infoRaid =>
    obtain ⟨_, hinfo, -⟩ := returns_exec_infoRaid.1 h
    rw [infoRaid_state hn hinfo]
    exact .load
  | destroyRaid =>
    obtain ⟨_, hdestroy, -⟩ := returns_exec_destroyRaid.1 h
    obtain ⟨s₁, hr, -, hcases⟩ := destroyRaid_returns hn s
    obtain ⟨-, rfl⟩ := hdestroy.unique hr
    rcases hcases with ⟨-, -, hm, hsuper⟩ | ⟨-, -, -, hm, hsuper⟩
    · exact .destroy hm hsuper
    · exact .destroyNothing hm hsuper
  | reboot =>
    obtain ⟨-, rfl⟩ := returns_exec_reboot.1 h
    exact .reboot rfl rfl
  | elsewhere kmem =>
    obtain ⟨-, rfl⟩ := returns_exec_elsewhere.1 h
    exact .nothing rfl rfl

/-! ### Properties of all metadata -/

/-- The metadata in memory and the copies on the disks satisfy `W`. -/
structure AllMeta (cfg : Config) (W : Raid → Prop) (s : Machine) : Prop where
  memory : ∀ m, s.raidMetadata = some m → W m
  copy : ∀ e, 1 ≤ e → e ≤ cfg.disks → W (s.super e)

section AllMeta

variable {W : Raid → Prop}

theorem AllMeta.fetched (hn : 1 ≤ cfg.disks) (hI : AllMeta cfg W s)
    (hload : ∀ m, W m → W { m with stripe := -1, parityCached := -1 }) :
    AllMeta cfg W (fetched cfg s) := by
  constructor
  · intro m hm
    obtain ⟨m₁, hm₁, hsource⟩ := fetched_raidMetadata hn s
    obtain rfl := Option.mem_unique hm hm₁
    rcases hsource with hmem | ⟨e, h₁, h₂, rfl⟩
    · exact hI.memory m hmem
    · exact hload _ (hI.copy e h₁ h₂)
  · rw [fetched_super]
    exact hI.copy

theorem AllMeta.saved {live : ℕ → Prop} {s₁ : Machine} (hI : AllMeta cfg W s)
    (hsuper : s₁.super = s.super) (hsaved : Saved cfg live m s₁ s') (hm : W m) :
    AllMeta cfg W s' := by
  constructor
  · intro m' hm'
    obtain rfl := Option.mem_unique hsaved.raidMetadata hm'
    exact hm
  · intro e h₁ h₂
    rcases Classical.em (live e) with he | he
    · rwa [hsaved.super_live e h₁ h₂ he]
    · rw [hsaved.super_dead e he, hsuper]
      exact hI.copy e h₁ h₂

/-- What is to be shown for a call to keep a property of all metadata. -/
theorem AllMeta.step (hn : 1 ≤ cfg.disks) (hI : AllMeta cfg W s) (hstep : MetaStep cfg s c s')
    (hzero : W Raid.zero) (hload : ∀ m, W m → W { m with stripe := -1, parityCached := -1 })
    (haccess : c.isAccess = true → ∀ m', s'.raidMetadata = some m' → W m')
    (hinit : ∀ x m, c = .initRaid x → (RaidSystem.fetched cfg s).raidMetadata = some m → W m →
      W (initMeta cfg (.ofInt x) m))
    (hfail : ∀ x m d s₁ m', c = .diskFailRaid x → Addresses cfg s x m d →
      ¬ m.Dead d → W m →
      Returns (failRoles cfg d) (s.withMeta (markDead m d)) () s₁ →
      s₁.raidMetadata = some m' → W m')
    (hrepair : ∀ x m d s₁ m', c = .diskRepairedRaid x → Addresses cfg s x m d →
      m.Dead d → W m →
      Returns (repairRoles cfg d) (s.withMeta (markRepaired m d)) () s₁ →
      s₁.raidMetadata = some m' → W m') : AllMeta cfg W s' := by
  cases hstep with
  | nothing hm hsuper => exact ⟨by rw [hm]; exact hI.memory, by rw [hsuper]; exact hI.copy⟩
  | access hc hcore hsuper => exact ⟨haccess hc, by rw [hsuper]; exact hI.copy⟩
  | init hm hm' hsuper =>
    have hW := hinit _ _ rfl hm ((hI.fetched hn hload).memory _ hm)
    constructor
    · intro m₁ hm₁
      rwa [← Option.mem_unique hm' hm₁]
    · intro e h₁ h₂
      rwa [hsuper e h₁ h₂]
  | fail ha hd hroles hm' hsuper hsaved =>
    exact hI.saved hsuper hsaved (hfail _ _ _ _ _ rfl ha hd (hI.memory _ ha.1) hroles hm')
  | repair ha hd hroles hm' hsuper hsaved =>
    exact hI.saved hsuper hsaved (hrepair _ _ _ _ _ rfl ha hd (hI.memory _ ha.1) hroles hm')
  | load => exact hI.fetched hn hload
  | destroy hm hsuper =>
    refine ⟨fun m₁ hm₁ => ?_, fun e h₁ h₂ => ?_⟩
    · rw [hm] at hm₁
      cases hm₁
    · rwa [hsuper e h₁ h₂]
  | destroyNothing hm hsuper =>
    refine ⟨fun m₁ hm₁ => ?_, by rw [hsuper]; exact hI.copy⟩
    rw [← Option.mem_unique hm hm₁]
    exact hI.copy 1 le_rfl hn
  | reboot hm hsuper =>
    refine ⟨fun m₁ hm₁ => ?_, by rw [hsuper]; exact hI.copy⟩
    rw [hm] at hm₁
    cases hm₁

end AllMeta

end RaidSystem
