/-
**Destroying an array.**

`destroy_raid` clears the structure and saves it: a cleared structure calls every disk alive, so the
save reaches also the disks that were dead.  If there is no array in memory it looks for one on disk
`1` only, which is enough, because either every disk has the copy of an array or none has
(`CopiesUniform`).

Main definitions:

* `CopiesUniform` — the copies are all cleared, or all those of an array;
* `Machine.Destroyed` — no array is in memory, and all copies are cleared;
* `RefusedAll`, `StartsAfresh` — what the calls after a `destroy_raid` do.

Main results:

* `copiesUniform_step` — every call keeps the copies uniform;
* `destroy_resets` — **`destroy_raid` is a full reset**.
-/

import RaidSystem.MetadataSteps

set_option autoImplicit false

namespace RaidSystem

open Prog

variable {cfg : Config} {s s' : Machine} {m m' : Raid} {r : Reply} {c : Call}

/-! ### Definitions -/

/-- Either all copies are cleared or all are copies of an array; and an array in memory has
copies. -/
structure CopiesUniform (cfg : Config) (s : Machine) : Prop where
  copies : (∀ e, 1 ≤ e → e ≤ cfg.disks → s.super e = Raid.zero) ∨
    ∀ e, 1 ≤ e → e ≤ cfg.disks → (s.super e).raidInitialized = true
  memory : s.ready = true → ∀ e, 1 ≤ e → e ≤ cfg.disks → (s.super e).raidInitialized = true

/-- There is no array, neither in memory nor on the disks. -/
structure Machine.Destroyed (cfg : Config) (s : Machine) : Prop where
  ready : s.ready = false
  super : ∀ e, 1 ≤ e → e ≤ cfg.disks → s.super e = Raid.zero

/-- Every call other than `init_raid` returns, with the code `0` if it is `destroy_raid` and `-1` if
it is another system call, and leaves all blocks but block `0` as they are. -/
def RefusedAll (cfg : Config) (s : Machine) : Prop :=
  ∀ c : Call, (∀ x, c ≠ .initRaid x) → ∃ r s', Returns (exec cfg c) s r s' ∧
    (c = .destroyRaid → r.code = 0) ∧ (c.isSystemCall = true → c ≠ .destroyRaid → r.code = -1) ∧
    ∀ d j, 2 ≤ j → s'.disk d j = s.disk d j

/-- `init_raid` returns, and leaves the metadata and the copies that it leaves on a machine that has
just booted on zero-filled disks: all disks alive, none counted as dead, and nothing cached. -/
def StartsAfresh (cfg : Config) (s : Machine) : Prop :=
  ∀ x, ∃ m s', Returns (exec cfg (.initRaid x)) s { code := 0 } s' ∧ s'.raidMetadata = some m ∧
    (∀ i, m.diskState i = .ALIVE) ∧ m.numDeadDisks = 0 ∧ m.stripe = -1 ∧ m.parityCached = -1 ∧
    ∀ z z' : Machine, z.Blank → ∀ r, Returns (exec cfg (.initRaid x)) z r z' →
      z'.raidMetadata = some m ∧ ∀ e, 1 ≤ e → e ≤ cfg.disks → s'.super e = z'.super e

/-! ### The copies along a run -/

theorem ready_of_raidMetadata (h : s'.raidMetadata = s.raidMetadata) : s'.ready = s.ready := by
  rw [Machine.ready, Machine.ready, h]

/-- Saving the metadata of an array where the disks are not dead. -/
theorem CopiesUniform.saved {live : ℕ → Prop} {s₁ : Machine} (hI : CopiesUniform cfg s)
    (hs : s.ready = true) (hsuper : s₁.super = s.super) (hinit : m.raidInitialized = true)
    (hsaved : Saved cfg live m s₁ s') : CopiesUniform cfg s' := by
  have hcopies : ∀ e, 1 ≤ e → e ≤ cfg.disks → (s'.super e).raidInitialized = true := by
    intro e h₁ h₂
    cases Classical.em (live e) with
    | inl he => rwa [hsaved.super_live e h₁ h₂ he]
    | inr he =>
      rw [hsaved.super_dead e he, hsuper]
      exact hI.memory hs e h₁ h₂
  exact ⟨.inr hcopies, fun _ => hcopies⟩

theorem CopiesUniform.fetched (hn : 1 ≤ cfg.disks) (hI : CopiesUniform cfg s) :
    CopiesUniform cfg (fetched cfg s) := by
  constructor
  · rw [fetched_super]
    exact hI.copies
  · rw [fetched_super]
    cases hI.copies with
    | inr hall => exact fun _ => hall
    | inl hzero =>
      intro hready
      refine hI.memory ?_
      rw [RaidSystem.fetched] at hready
      split at hready
      case isTrue hs => exact hs
      case isFalse =>
        -- a cleared copy has been loaded
        have hsource := stopsAt_fetchSource hn s.super
        simp [Machine.ready, hzero _ hsource.1 hsource.2.1, Raid.zero] at hready

/-- The failure or the repair of a disk is one of a disk of an array. -/
theorem Addresses.ready {x : ℤ} {d : ℕ} (ha : Addresses cfg s x m d) : s.ready = true := by
  rw [Machine.ready, ha.1]
  exact ha.2.1

theorem raidInitialized_of_shape (h : m'.shape = m.shape) (hm : m.raidInitialized = true) :
    m'.raidInitialized = true := by
  rw [(Prod.mk.inj h).1, hm]

/-- **Every call keeps the copies uniform.** -/
theorem copiesUniform_step (hn : 1 ≤ cfg.disks) (hI : CopiesUniform cfg s)
    (h : Returns (exec cfg c) s r s') : CopiesUniform cfg s' := by
  cases metaStep_of_returns hn h with
  | nothing hm hsuper =>
    refine ⟨by rw [hsuper]; exact hI.copies, ?_⟩
    rw [ready_of_raidMetadata hm, hsuper]
    exact hI.memory
  | access hc hcore hsuper =>
    refine ⟨by rw [hsuper]; exact hI.copies, fun hready => ?_⟩
    rw [hsuper]
    refine hI.memory ?_
    cases hm' : s'.raidMetadata with
    | none => simp [Machine.ready, hm'] at hready
    | some m' =>
      obtain ⟨m, hm, hmm'⟩ := exists_of_core hm' hcore
      rw [Machine.ready, hm'] at hready
      rw [Machine.ready, hm]
      exact (congrArg Raid.raidInitialized hmm').trans hready
  | init hm hm' hsuper =>
    have hcopies : ∀ e, 1 ≤ e → e ≤ cfg.disks → (s'.super e).raidInitialized = true := by
      intro e h₁ h₂
      rw [hsuper e h₁ h₂, initMeta_raidInitialized]
    exact ⟨.inr hcopies, fun _ => hcopies⟩
  | fail ha hd hroles hm' hsuper hsaved =>
    exact hI.saved ha.ready hsuper (raidInitialized_of_shape
      (shape_of_roles roleFrame_shape.failRoles hroles hm') ha.2.1) hsaved
  | repair ha hd hroles hm' hsuper hsaved =>
    exact hI.saved ha.ready hsuper (raidInitialized_of_shape
      (shape_of_roles roleFrame_shape.repairRoles hroles hm') ha.2.1) hsaved
  | load => exact hI.fetched hn
  | destroy hm hsuper => exact ⟨.inl hsuper, by simp [Machine.ready, hm]⟩
  | destroyNothing hm hsuper =>
    refine ⟨by rw [hsuper]; exact hI.copies, fun hready => ?_⟩
    rw [hsuper]
    cases hI.copies with
    | inl hzero =>
      simp [Machine.ready, hm, hzero 1 le_rfl hn, Raid.zero] at hready
    | inr hall => exact hall
  | reboot hm hsuper =>
    refine ⟨by rw [hsuper]; exact hI.copies, by simp [Machine.ready, hm]⟩

theorem copiesUniform {s₀ : Machine} {h : List Call} {ok : List Call → Machine → Call → Prop}
    (hn : 1 ≤ cfg.disks) (hs₀ : s₀.Blank) (hr : Reach (exec cfg) ok s₀ h s) :
    CopiesUniform cfg s := by
  refine hr.inv (fun _ s => CopiesUniform cfg s) ?_ ?_
  · refine ⟨.inl fun e _ _ => hs₀.super e, ?_⟩
    simp [Machine.ready, hs₀.raidMetadata]
  · intro h s c r s' hI _ hret
    exact copiesUniform_step hn hI hret

/-! ### After a `destroy_raid` -/

/-- **`destroy_raid` returns, and leaves no array behind.** -/
theorem CopiesUniform.destroyRaid (hn : 1 ≤ cfg.disks) (hI : CopiesUniform cfg s) :
    ∃ s', Returns (exec cfg .destroyRaid) s { code := 0 } s' ∧ s'.Destroyed cfg ∧
      ∀ d j, 2 ≤ j → s'.disk d j = s.disk d j := by
  obtain ⟨s', hr, hdisk, hcases⟩ := destroyRaid_returns hn s
  refine ⟨s', returns_exec_destroyRaid.2 ⟨0, hr, rfl⟩, ?_, hdisk⟩
  rcases hcases with ⟨-, -, hm, hzero⟩ | ⟨-, hinit, -, hm, hsuper⟩
  · exact ⟨by simp [Machine.ready, hm], hzero⟩
  · refine ⟨by simp [Machine.ready, hm, hinit], ?_⟩
    rw [hsuper]
    cases hI.copies with
    | inl hzero => exact hzero
    | inr hall =>
      -- then disk `1` would have had the copy of an array
      rw [hall 1 le_rfl hn] at hinit
      cases hinit

namespace Machine.Destroyed

theorem copiesUniform (hs : s.Destroyed cfg) : CopiesUniform cfg s := by
  refine ⟨.inl hs.super, fun h => ?_⟩
  rw [hs.ready] at h
  cases h

/-- What `fetch` loads is a cleared copy. -/
theorem fetched_raidMetadata (hn : 1 ≤ cfg.disks) (hs : s.Destroyed cfg) :
    (fetched cfg s).raidMetadata = some { Raid.zero with stripe := -1, parityCached := -1 } := by
  have hsource := stopsAt_fetchSource hn s.super
  simp [fetched, hs.ready, hs.super _ hsource.1 hsource.2.1]

theorem fetched_destroyed (hn : 1 ≤ cfg.disks) (hs : s.Destroyed cfg) :
    (fetched cfg s).Destroyed cfg := by
  constructor
  · rw [Machine.ready, hs.fetched_raidMetadata hn]
    rfl
  · rw [fetched_super]
    exact hs.super

/-- Without an array the guards refuse accesses, failures and repairs. -/
theorem not_accepts (hs : s.Destroyed cfg) {x : ℤ} {data : Option Block} :
    ¬ ∃ m buf, s.raidMetadata = some m ∧ data = some buf ∧ m.Accepts x := by
  rintro ⟨m, buf, hm, -, hx⟩
  have hready := hs.ready
  rw [Machine.ready, hm] at hready
  exact absurd hx.1 (by simp [hready])

theorem not_addresses (hs : s.Destroyed cfg) {x : ℤ} : ¬ ∃ m d, Addresses cfg s x m d := by
  rintro ⟨m, d, ha⟩
  have hready := hs.ready
  rw [ha.ready] at hready
  cases hready

/-- One call after a `destroy_raid`, other than `init_raid`. -/
theorem step (hn : 1 ≤ cfg.disks) (hs : s.Destroyed cfg) (hc : ∀ x, c ≠ .initRaid x) :
    ∃ r s', Returns (exec cfg c) s r s' ∧ s'.Destroyed cfg ∧ (c = .destroyRaid → r.code = 0) ∧
      (c.isSystemCall = true → c ≠ .destroyRaid → r.code = -1) ∧
      ∀ d j, 2 ≤ j → s'.disk d j = s.disk d j := by
  have hsame : ∀ d j, 2 ≤ j → s.disk d j = s.disk d j := fun _ _ _ => rfl
  cases c with
  | initRaid x => exact absurd rfl (hc x)
  | readRaid x data =>
    exact ⟨_, s, returns_exec_readRaid.2 ⟨_, (accessRaid_rejected hs.not_accepts).2 ⟨rfl, rfl⟩,
      rfl⟩, hs, by simp, fun _ _ => rfl, hsame⟩
  | writeRaid x data =>
    exact ⟨_, s, returns_exec_writeRaid.2 ⟨_, (accessRaid_rejected hs.not_accepts).2 ⟨rfl, rfl⟩,
      rfl⟩, hs, by simp, fun _ _ => rfl, hsame⟩
  | diskFailRaid x =>
    exact ⟨_, s, returns_exec_diskFailRaid.2 ⟨_, (diskFailRaid_refused hs.not_addresses).2
      ⟨rfl, rfl⟩, rfl⟩, hs, by simp, fun _ _ => rfl, hsame⟩
  | diskRepairedRaid x =>
    exact ⟨_, s, returns_exec_diskRepairedRaid.2 ⟨_,
      (diskRepairedRaid_refused hs.not_addresses).2 ⟨rfl, rfl⟩, rfl⟩, hs, by simp,
      fun _ _ => rfl, hsame⟩
  | infoRaid =>
    have hinfo : Returns (infoRaid cfg) s (-1, none) (fetched cfg s) := by
      rw [infoRaid, (fetch_returns hn s).bind_iff,
        (returns_metadata.2 ⟨hs.fetched_raidMetadata hn, rfl⟩).bind_iff]
      exact returns_pure.2 ⟨rfl, rfl⟩
    refine ⟨_, fetched cfg s, returns_exec_infoRaid.2 ⟨_, hinfo, rfl⟩, hs.fetched_destroyed hn,
      by simp, fun _ _ => rfl, ?_⟩
    rw [fetched_disk]
    exact hsame
  | destroyRaid =>
    obtain ⟨s', hr, hs', hdisk⟩ := hs.copiesUniform.destroyRaid hn
    exact ⟨_, s', hr, hs', fun _ => rfl, fun _ hne => absurd rfl hne, hdisk⟩
  | reboot =>
    exact ⟨_, _, returns_exec_reboot.2 ⟨rfl, rfl⟩, ⟨rfl, hs.super⟩, by simp,
      by simp [Call.isSystemCall], hsame⟩
  | elsewhere kmem =>
    exact ⟨_, _, returns_exec_elsewhere.2 ⟨rfl, rfl⟩, ⟨hs.ready, hs.super⟩, by simp,
      by simp [Call.isSystemCall], hsame⟩

theorem of_blank (cfg : Config) (hs : s.Blank) : s.Destroyed cfg :=
  ⟨by simp [Machine.ready, hs.raidMetadata], fun e _ _ => hs.super e⟩

/-- `init_raid` after a `destroy_raid` makes the metadata of a new array. -/
theorem initRaid_returns (hn : 1 ≤ cfg.disks) (hs : s.Destroyed cfg) (x : ℤ) :
    ∃ s', Returns (exec cfg (.initRaid x)) s { code := 0 } s' ∧
      s'.raidMetadata = some (freshMeta cfg (.ofInt x)) ∧
      ∀ e, 1 ≤ e → e ≤ cfg.disks → s'.super e = freshMeta cfg (.ofInt x) := by
  obtain ⟨s', hr, hsaved⟩ := RaidSystem.initRaid_returns hn (.ofInt x) (hs.fetched_raidMetadata hn)
  exact ⟨s', returns_exec_initRaid.2 ⟨0, hr, rfl⟩, hsaved.raidMetadata,
    fun e h₁ h₂ => hsaved.super_live e h₁ h₂ trivial⟩

theorem startsAfresh (hn : 1 ≤ cfg.disks) (hs : s.Destroyed cfg) : StartsAfresh cfg s := by
  intro x
  obtain ⟨s', hr, hm, hsuper⟩ := hs.initRaid_returns hn x
  have hfresh : ∀ t, (freshMeta cfg t).stripe = -1 ∧ (freshMeta cfg t).parityCached = -1 := by
    intro t
    cases t <;> exact ⟨rfl, rfl⟩
  refine ⟨_, s', hr, hm, fun i => ?_, initMeta_numDeadDisks cfg _ _, (hfresh _).1, (hfresh _).2, ?_⟩
  · rw [freshMeta, initMeta_diskState]
    rfl
  · intro z z' hz r hr'
    obtain ⟨z₁, hr₁, hm₁, hsuper₁⟩ := (of_blank cfg hz).initRaid_returns hn x
    obtain ⟨-, rfl⟩ := hr'.unique hr₁
    exact ⟨hm₁, fun e h₁ h₂ => (hsuper e h₁ h₂).trans (hsuper₁ e h₁ h₂).symm⟩

end Machine.Destroyed

/-- **`destroy_raid` is a full reset.**  After any run from zero-filled disks it returns `0`; from
then on, until the next `init_raid`, every other system call is refused and no block but block `0`
changes; and the next `init_raid` makes the metadata that the first one on zero-filled disks
makes. -/
theorem destroy_resets (hn : 2 ≤ cfg.disks) {s₀ : Machine} (hs₀ : s₀.Blank) {h : List Call}
    (hr : Reach (exec cfg) (fun _ _ _ => True) s₀ h s) :
    ∃ s₁, Returns (exec cfg .destroyRaid) s { code := 0 } s₁ ∧
      ∀ h₂ s₂, Reach (exec cfg) (fun _ _ c => ∀ x, c ≠ .initRaid x) s₁ h₂ s₂ →
        RefusedAll cfg s₂ ∧ StartsAfresh cfg s₂ ∧ ∀ d j, 2 ≤ j → s₂.disk d j = s.disk d j := by
  have hn₁ : 1 ≤ cfg.disks := Nat.le_of_succ_le hn
  obtain ⟨s₁, hdestroy, hs₁, hdisk₁⟩ := (copiesUniform hn₁ hs₀ hr).destroyRaid hn₁
  refine ⟨s₁, hdestroy, fun h₂ s₂ hreach => ?_⟩
  have hI : s₂.Destroyed cfg ∧ ∀ d j, 2 ≤ j → s₂.disk d j = s.disk d j := by
    refine hreach.inv (fun _ s₂ => s₂.Destroyed cfg ∧ ∀ d j, 2 ≤ j → s₂.disk d j = s.disk d j)
      ⟨hs₁, hdisk₁⟩ ?_
    rintro h s c r s' ⟨hs, hdisk⟩ hc hret
    obtain ⟨r₁, s₃, hret₁, hs₃, -, -, hdisk₃⟩ := hs.step hn₁ hc
    obtain ⟨-, rfl⟩ := hret.unique hret₁
    exact ⟨hs₃, fun d j hj => (hdisk₃ d j hj).trans (hdisk d j hj)⟩
  refine ⟨fun c hc => ?_, hI.1.startsAfresh hn₁, hI.2⟩
  obtain ⟨r, s₃, hret, -, hzero, hrefused, hdisk⟩ := hI.1.step hn₁ hc
  exact ⟨r, s₃, hret, hzero, hrefused, hdisk⟩

theorem destroy_resets_three : ∃ s s₁, 2 ≤ (smallConfig 3).disks ∧
    Reach (exec (smallConfig 3)) (fun _ _ _ => True) blankMachine [.diskFailRaid 1, .initRaid 4] s ∧
    Returns (exec (smallConfig 3) .destroyRaid) s { code := 0 } s₁ ∧
    RefusedAll (smallConfig 3) s₁ := by
  have hn : 2 ≤ (smallConfig 3).disks := by decide
  have hreach : Reach (exec (smallConfig 3)) (fun _ _ _ => True) blankMachine
      [.initRaid 4, .diskFailRaid 1].reverse _ := .of_allows_start (by decide +kernel)
  obtain ⟨s₁, hret, hafter⟩ := destroy_resets hn blankMachine_blank hreach
  exact ⟨_, s₁, hn, hreach, hret, (hafter [] s₁ .start).1⟩

end RaidSystem
