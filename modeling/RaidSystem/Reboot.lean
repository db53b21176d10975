/-
**What a reboot leaves of the metadata.**

A reboot loses the memory.  The next call that needs the metadata loads, by `fetch`, one of the
copies on the disks.  Copies are written by `writeback`, which passes over the dead disks, and by
`init_raid`, which does not; so the copy on a disk is as old as the disk has been dead.

`fetch` reads the copies from disk `1` on.  After the copy of disk `i` it tests `disk_state[i]`,
which is the state of disk `i + 1`, and stops if that disk is not dead.  What it should find out is
whether disk `i` itself is dead.

Main definitions:

* `SurvivesReboot` — the metadata loaded after a reboot are those from before it;
* `StopsAtLive` — the search of `fetch` ends with a disk that is not dead.

Main results:

* `copiesCurrent`, `ownCopyAlive` — what a run keeps: a disk that is not dead has a current copy,
  and the copy on a dead disk does not call it dead;
* `survives_reboot` — **the metadata survive if the search stops at a disk that is not dead**, and
  only then unless `init_raid` was called while a disk was dead;
* `stale_copy_loaded` — **the failure of disk `1` is forgotten by a reboot**.
-/

import RaidSystem.MetadataSteps

set_option autoImplicit false

namespace RaidSystem

open Prog

variable {cfg : Config} {s s' : Machine} {m m' : Raid} {r : Reply} {c : Call} {d i : ℕ}

/-! ### Definitions -/

/-- The metadata `m` in memory are, up to the cache and `parity_disk`, those that `fetch` loads
after a reboot. -/
def SurvivesReboot (cfg : Config) (s : Machine) (m : Raid) : Prop :=
  ∃ r s₁ s₂ m', Returns (exec cfg .reboot) s r s₁ ∧ Returns (fetch cfg) s₁ () s₂ ∧
    s₂.raidMetadata = some m' ∧ m'.core = m.core

/-- The search of `fetch` would stop at a disk that is not dead. -/
def StopsAtLive (cfg : Config) (s : Machine) (m : Raid) : Prop :=
  ∀ i, StopsAt cfg s.super i → ¬ m.Dead i

/-- The calls other than `info_raid` and `destroy_raid`. -/
def Call.isArrayCall : Call → Bool
  | .initRaid _ | .readRaid _ _ | .writeRaid _ _ | .diskFailRaid _ | .diskRepairedRaid _ => true
  | _ => false

/-- `init_raid` is called while no disk is dead, neither in memory nor in a copy. -/
def InitsIntact (cfg : Config) (s : Machine) : Call → Prop
  | .initRaid _ => ∀ d, 1 ≤ d → d ≤ cfg.disks →
      (∀ m, s.raidMetadata = some m → ¬ m.Dead d) ∧
        ∀ e, 1 ≤ e → e ≤ cfg.disks → ¬ (s.super e).Dead d
  | _ => True

/-! ### The search -/

theorem stopsAtLive_iff (hn : 1 ≤ cfg.disks) :
    StopsAtLive cfg s m ↔ ¬ m.Dead (fetchSource cfg.disks s.super) := by
  constructor
  · intro h
    exact h _ (stopsAt_fetchSource hn s.super)
  · intro h i hi
    rwa [hi.unique (stopsAt_fetchSource hn s.super)]

/-- A reboot, and then `fetch`. -/
theorem survivesReboot_iff (hn : 1 ≤ cfg.disks) :
    SurvivesReboot cfg s m ↔ (s.super (fetchSource cfg.disks s.super)).core = m.core := by
  have hreboot : Returns (exec cfg .reboot) s { code := 0 }
      { s with raidMetadata := none, pages := 0 } := returns_exec_reboot.2 ⟨rfl, rfl⟩
  have hfetch := fetch_returns hn { s with raidMetadata := none, pages := 0 }
  constructor
  · rintro ⟨r, s₁, s₂, m', h₁, h₂, hm', hcore⟩
    obtain ⟨-, rfl⟩ := h₁.unique hreboot
    obtain ⟨-, rfl⟩ := h₂.unique hfetch
    obtain rfl := Option.some_inj.1 hm'
    exact hcore
  · intro hcore
    exact ⟨_, _, _, _, hreboot, hfetch, rfl, hcore⟩

/-! ### What a run keeps -/

/-- Every disk that is not dead has a current copy. -/
def CopiesCurrent (cfg : Config) (s : Machine) : Prop :=
  ∀ m, s.raidMetadata = some m → ∀ d, LiveDisk cfg m d → (s.super d).core = m.core

/-- The copy on a dead disk does not call it dead. -/
def OwnCopyAlive (cfg : Config) (s : Machine) : Prop :=
  ∀ m, s.raidMetadata = some m → ∀ d, 1 ≤ d → d ≤ cfg.disks → m.Dead d → ¬ (s.super d).Dead d

section Steps

variable {s₁ : Machine}

theorem CopiesCurrent.saved (hsaved : Saved cfg (fun e => ¬ m.Dead e) m s₁ s') :
    CopiesCurrent cfg s' := by
  intro m' hm' d hd
  obtain rfl := Option.mem_unique hsaved.raidMetadata hm'
  rw [hsaved.super_live d hd.1 hd.2.1 hd.2.2]

theorem CopiesCurrent.step (hI : CopiesCurrent cfg s) (hc : c.isArrayCall = true)
    (hstep : MetaStep cfg s c s') : CopiesCurrent cfg s' := by
  cases hstep with
  | nothing hm hsuper =>
    intro m' hm' d hd
    rw [hsuper]
    exact hI m' (hm.symm.trans hm') d hd
  | access _ hcore hsuper =>
    intro m' hm' d hd
    obtain ⟨m, hm, hmm'⟩ := exists_of_core hm' hcore
    have hlive : ¬ m.Dead d := fun hdead => hd.2.2 ((Raid.dead_of_core hmm').1 hdead)
    rw [hsuper, hI m hm d ⟨hd.1, hd.2.1, hlive⟩, hmm']
  | init hm hinit hsuper =>
    intro m' hm' d hd
    obtain rfl := Option.mem_unique hinit hm'
    rw [hsuper d hd.1 hd.2.1]
  | fail _ _ _ _ _ hsaved => exact .saved hsaved
  | repair _ _ _ _ _ hsaved => exact .saved hsaved
  | load => cases hc
  | destroy => cases hc
  | destroyNothing => cases hc
  | reboot => cases hc

/-- A save leaves a dead disk the copy that it had when it was alive, or already dead. -/
theorem OwnCopyAlive.saved (hcur : CopiesCurrent cfg s) (hI : OwnCopyAlive cfg s)
    (hm : s.raidMetadata = some m) (hsuper : s₁.super = s.super)
    (hsaved : Saved cfg (fun e => ¬ m'.Dead e) m' s₁ s') : OwnCopyAlive cfg s' := by
  intro m₁ hm₁ d h₁ h₂ hdead
  obtain rfl := Option.mem_unique hsaved.raidMetadata hm₁
  rw [hsaved.super_dead d (not_not.2 hdead), hsuper]
  rcases Classical.em (m.Dead d) with hd | hd
  · exact hI m hm d h₁ h₂ hd
  · exact fun hd' => hd ((Raid.dead_of_core (hcur m hm d ⟨h₁, h₂, hd⟩)).1 hd')

theorem OwnCopyAlive.step (hn : 1 ≤ cfg.disks) (hcur : CopiesCurrent cfg s)
    (hI : OwnCopyAlive cfg s) (hc : c.isArrayCall = true) (hintact : InitsIntact cfg s c)
    (hstep : MetaStep cfg s c s') : OwnCopyAlive cfg s' := by
  cases hstep with
  | nothing hm hsuper =>
    intro m' hm' d h₁ h₂ hdead
    rw [hsuper]
    exact hI m' (hm.symm.trans hm') d h₁ h₂ hdead
  | access _ hcore hsuper =>
    intro m' hm' d h₁ h₂ hdead
    obtain ⟨m, hm, hmm'⟩ := exists_of_core hm' hcore
    rw [hsuper]
    exact hI m hm d h₁ h₂ ((Raid.dead_of_core hmm').2 hdead)
  | init hm hinit hsuper =>
    -- `init_raid` finds no dead disk, and makes none
    intro m' hm' d h₁ h₂ hdead
    obtain rfl := Option.mem_unique hinit hm'
    obtain ⟨hmem, hcopy⟩ := hintact d h₁ h₂
    obtain ⟨m₁, hm₁, hsource⟩ := fetched_raidMetadata hn s
    obtain rfl := Option.mem_unique hm hm₁
    rw [Raid.Dead, initMeta_diskState] at hdead
    rcases hsource with hm | ⟨e, he₁, he₂, rfl⟩
    · exact absurd hdead (hmem _ hm)
    · exact absurd hdead (hcopy e he₁ he₂)
  | fail ha _ _ _ hsuper hsaved => exact .saved hcur hI ha.1 hsuper hsaved
  | repair ha _ _ _ hsuper hsaved => exact .saved hcur hI ha.1 hsuper hsaved
  | load => cases hc
  | destroy => cases hc
  | destroyNothing => cases hc
  | reboot => cases hc

end Steps

section Runs

variable {s₀ : Machine} {h : List Call} {ok : List Call → Machine → Call → Prop}

section

variable (hn : 1 ≤ cfg.disks) (hs₀ : s₀.raidMetadata = none)
  (hok : ∀ h s c, ok h s c → c.isArrayCall = true)

include hn hs₀ hok

theorem copiesCurrent (hr : Reach (exec cfg) ok s₀ h s) :
    CopiesCurrent cfg s := by
  refine hr.inv (fun _ s => CopiesCurrent cfg s) ?_ ?_
  · intro m hm
    rw [hs₀] at hm
    cases hm
  · intro h s c r s' hI hc hret
    exact hI.step (hok h s c hc) (metaStep_of_returns hn hret)

theorem ownCopyAlive (hinit : ∀ h s c, ok h s c → InitsIntact cfg s c)
    (hr : Reach (exec cfg) ok s₀ h s) :
    OwnCopyAlive cfg s := by
  have hboth : CopiesCurrent cfg s ∧ OwnCopyAlive cfg s := by
    refine hr.inv (fun _ s => CopiesCurrent cfg s ∧ OwnCopyAlive cfg s) ?_ ?_
    · constructor <;>
      · intro m hm
        rw [hs₀] at hm
        cases hm
    · intro h s c r s' hI hc hret
      have hstep := metaStep_of_returns hn hret
      exact ⟨hI.1.step (hok h s c hc) hstep,
        hI.2.step hn hI.1 (hok h s c hc) (hinit h s c hc) hstep⟩
  exact hboth.2

end

/-- **The metadata survive a reboot if the search of `fetch` stops at a disk that is not dead.**  If
`init_raid` was only called while no disk was dead, they survive in no other case. -/
theorem survives_reboot (hs₀ : s₀.raidMetadata = none)
    (hok : ∀ h s c, ok h s c → c.isArrayCall = true) (hr : Reach (exec cfg) ok s₀ h s)
    (hm : s.raidMetadata = some m) (hlive : ∃ d, LiveDisk cfg m d) :
    (StopsAtLive cfg s m → SurvivesReboot cfg s m) ∧
      ((∀ h s c, ok h s c → InitsIntact cfg s c) →
        (SurvivesReboot cfg s m ↔ StopsAtLive cfg s m)) := by
  obtain ⟨d, hd₁, hd₂, -⟩ := hlive
  have hn : 1 ≤ cfg.disks := Nat.le_trans hd₁ hd₂
  obtain ⟨h₁, h₂, -⟩ := stopsAt_fetchSource hn s.super
  have hsurvives : StopsAtLive cfg s m → SurvivesReboot cfg s m := by
    intro hstop
    rw [survivesReboot_iff hn]
    exact copiesCurrent hn hs₀ hok hr m hm _ ⟨h₁, h₂, (stopsAtLive_iff hn).1 hstop⟩
  refine ⟨hsurvives, fun hinit => ⟨fun hsurv => ?_, hsurvives⟩⟩
  rw [survivesReboot_iff hn] at hsurv
  rw [stopsAtLive_iff hn]
  intro hdead
  exact ownCopyAlive hn hs₀ hok hinit hr m hm _ h₁ h₂ hdead ((Raid.dead_of_core hsurv).2 hdead)

end Runs

/-- An array of type `RAID5` on four disks that loses disk `4`. -/
def lastDiskFails : List Call := [.initRaid 4, .diskFailRaid 4]

theorem survives_reboot_four : ∃ s m,
    Reach (exec (smallConfig 4)) (fun _ _ c => c.isArrayCall = true) blankMachine
      lastDiskFails.reverse s ∧
    s.raidMetadata = some m ∧ m.Dead 4 ∧ StopsAtLive (smallConfig 4) s m ∧
    SurvivesReboot (smallConfig 4) s m := by
  have hr : Reach (exec (smallConfig 4)) (fun _ _ c => c.isArrayCall = true) blankMachine
      lastDiskFails.reverse _ := .of_allows_start (by decide +kernel)
  have hdisks : ∃ m ∈ (Reach.after (exec (smallConfig 4)) lastDiskFails blankMachine).raidMetadata,
      m.Dead 4 ∧ ¬ m.Dead 1 ∧ ¬ m.Dead (fetchSource (smallConfig 4).disks
        (Reach.after (exec (smallConfig 4)) lastDiskFails blankMachine).super) := by
    decide +kernel
  obtain ⟨m, hm, hfour, hone, hsource⟩ := hdisks
  have hlive : LiveDisk (smallConfig 4) m 1 := ⟨by decide, by decide, hone⟩
  have hstop := (stopsAtLive_iff (show 1 ≤ (smallConfig 4).disks by decide)).2 hsource
  exact ⟨_, m, hr, hm, hfour, hstop,
    (survives_reboot rfl (fun _ _ _ hc => hc) hr hm ⟨1, hlive⟩).1 hstop⟩

/-- An array of type `RAID0` on three disks that loses disk `1`. -/
def firstDiskFails : List Call := [.initRaid 0, .diskFailRaid 1]

/-- **The failure of disk `1` is forgotten by a reboot**: its copy was written before it failed, and
calls disk `2` alive, so `fetch` takes it. -/
theorem stale_copy_loaded : ¬ ∀ s₀ h s m, s₀.raidMetadata = none →
    Reach (exec (smallConfig 3)) (fun _ _ c => c.isArrayCall = true) s₀ h s →
    s.raidMetadata = some m → (∃ d, LiveDisk (smallConfig 3) m d) →
    SurvivesReboot (smallConfig 3) s m := by
  intro hsurvives
  have hcounts : ∃ m ∈
      (Reach.after (exec (smallConfig 3)) firstDiskFails blankMachine).raidMetadata,
      ¬ m.Dead 2 ∧ ((Reach.after (exec (smallConfig 3)) firstDiskFails blankMachine).super
        (fetchSource 3 (Reach.after (exec (smallConfig 3)) firstDiskFails
          blankMachine).super)).numDeadDisks ≠ m.numDeadDisks := by
    decide +kernel
  obtain ⟨m, hm, htwo, hne⟩ := hcounts
  have hsurv := hsurvives blankMachine firstDiskFails.reverse _ m rfl
    (.of_allows_start (by decide +kernel)) hm ⟨2, by decide, by decide, htwo⟩
  rw [survivesReboot_iff (by decide)] at hsurv
  have hsame := congrArg Raid.numDeadDisks hsurv
  exact hne hsame

end RaidSystem
