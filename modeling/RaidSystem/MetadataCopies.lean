/-
**The copies of the metadata on the disks.**

`writeback` saves the metadata on the disks that are not dead, and the functions that change the
metadata have many ways to return.  Each of them ends with a `writeback` after the last change, so
the copy on every disk that is not dead is current after every call.  Since `writeback` looks at the
states that have just been changed, a disk that fails is passed over from its own failure on: it
keeps the copy from before the failure until it is repaired.

The disks may hold anything when the array is created.  In particular `init_raid` takes over the
disk states that `fetch` has loaded, so disks can be dead from the start, and the role tables need
not agree with the disk states.  With an even number of disks this does no more than wrong roles:
every store to a role table stays inside the tables, and every call returns.

Main definitions:

* `CurrentArray` — there is an array in memory, and its copies are current;
* `StepsDead` — a call after which a given disk is dead.

Main results:

* `failRoles_returns`, `repairRoles_returns` — failures and repairs always return;
* `copies_current` — **every live disk carries the current metadata**, and a dead disk keeps its
  copy.
-/

import RaidSystem.MetadataSound
import RaidSystem.Reboot
import Mathlib.Logic.Relation

set_option autoImplicit false

namespace RaidSystem

open Prog Function

/-! ### Definitions -/

/-- Failures, repairs, and questions for the size of the array. -/
def Call.isUpkeep : Call → Bool
  | .diskFailRaid _ => true
  | .diskRepairedRaid _ => true
  | .infoRaid => true
  | _ => false

/-- A call leads from `s` to `s'`, and there disk `d` is dead. -/
def StepsDead (cfg : Config) (d : ℕ) (s s' : Machine) : Prop :=
  (∃ c r, c.isUpkeep = true ∧ Returns (exec cfg c) s r s') ∧ ∃ m', s'.raidMetadata = some m' ∧
    m'.Dead d

/-- What failures and repairs do not change in an array of type `t`. -/
structure Upkept (cfg : Config) (t : RaidType) (m : Raid) : Prop where
  raidInitialized : m.raidInitialized = true
  type : m.type = t
  numOfDisks : m.numOfDisks = numOfDisksOf t cfg.disks

variable {cfg : Config} {t : RaidType} {s s' : Machine} {m m' : Raid} {r : Reply} {c : Call}
  {d i k : ℕ}

/-! ### Every call returns -/

section Search

variable {entry : ℤ → Kernel ℤ} {v a : ℤ}

theorem findLast_returns (hentry : ∀ l : ℕ, i ≤ l → l < i + k → ∃ w, Returns (entry l) s w s) :
    ∃ r, Returns (findLast entry v i k a) s r s := by
  induction k generalizing i a with
  | zero => exact ⟨a, returns_pure.2 ⟨rfl, rfl⟩⟩
  | succ k ih =>
    obtain ⟨w, hw⟩ := hentry i (by omega) (by omega)
    obtain ⟨r, hr⟩ := ih (i := i + 1) (a := if w = v then i else a)
      fun l h₁ h₂ => hentry l (by omega) (by omega)
    exact ⟨r, returns_bind.2 ⟨w, s, hw, hr⟩⟩

theorem findHole_returns (hentry : ∀ l : ℕ, i ≤ l → l < i + k → ∃ w, Returns (entry l) s w s) :
    ∃ r, Returns (findHole entry i k) s r s := by
  induction k generalizing i with
  | zero => exact ⟨none, returns_pure.2 ⟨rfl, rfl⟩⟩
  | succ k ih =>
    obtain ⟨w, hw⟩ := hentry i (by omega) (by omega)
    by_cases hhole : w = -1
    · refine ⟨some i, returns_bind.2 ⟨w, s, hw, ?_⟩⟩
      rw [if_pos hhole]
      exact returns_pure.2 ⟨rfl, rfl⟩
    · obtain ⟨r, hr⟩ := ih (i := i + 1) fun l h₁ h₂ => hentry l (by omega) (by omega)
      refine ⟨r, returns_bind.2 ⟨w, s, hw, ?_⟩⟩
      rwa [if_neg hhole]

end Search

/-- A store to the word before `copy_disks`, which is the last entry of `data_disks`. -/
theorem setCopyDisks_before (hn : 2 ≤ cfg.disks) (hm : s.raidMetadata = some m) (v : ℤ) :
    ∃ m', Returns (setCopyDisks cfg (-1) v) s () (s.withMeta m') := by
  have hpos : Raid.copyDisksBase cfg.disks + -1 =
      Raid.dataDisksBase cfg.disks + ((cfg.disks / 2 - 1 : ℕ) : ℤ) := by
    unfold Raid.copyDisksBase Raid.dataDisksBase
    omega
  have hstore : m.setWord cfg.disks (Raid.copyDisksBase cfg.disks + -1) v = some { m with
      dataDisks := update m.dataDisks (cfg.disks / 2 - 1) v } := by
    rw [hpos, Raid.setWord_dataDisks (by omega) (by omega), Int.toNat_natCast]
  exact ⟨_, returns_setCopyDisks.2 (returns_storeWord.2 ⟨m, _, hm, hstore, rfl⟩)⟩

section Roles

variable (hn : 2 ≤ cfg.disks) (hm : s.raidMetadata = some m)

include hm

/-- The entries of all columns can be read. -/
theorem columns_return (hnum : m.numOfDisks = cfg.disks / 2) :
    (∀ l : ℕ, 0 ≤ l → l < 0 + m.numOfDisks → ∃ w, Returns (dataDisks cfg l) s w s) ∧
      ∀ l : ℕ, 0 ≤ l → l < 0 + m.numOfDisks → ∃ w, Returns (copyDisks cfg l) s w s :=
  ⟨fun l _ hl => ⟨_, dataDisks_returns hm (by omega)⟩,
    fun l _ hl => ⟨_, copyDisks_returns hm (by omega)⟩⟩

include hn

theorem failWithoutReserve_returns (hnum : m.numOfDisks = cfg.disks / 2) (x : ℤ) :
    ∃ m', Returns (failWithoutReserve cfg x m) s () (s.withMeta m') := by
  obtain ⟨hdata, hcopy⟩ := columns_return hm hnum
  obtain ⟨primary, hprimary⟩ := findLast_returns (v := x) (a := -1) hdata
  simp only [failWithoutReserve, hprimary.bind_iff]
  by_cases hnone : primary = -1
  · obtain ⟨copy, hfound⟩ := findLast_returns (v := x) (a := -1) hcopy
    simp only [hnone, ne_eq, not_true_eq_false, if_false, hfound.bind_iff]
    obtain ⟨-, ⟨i, -, hi, rfl⟩ | ⟨rfl, -⟩⟩ := findLast_cases copyDisks_pure hfound
    · exact ⟨_, setCopyDisks_returns hm (by omega) (-1)⟩
    · exact setCopyDisks_before hn hm (-1)
  · obtain ⟨-, ⟨i, -, hi, rfl⟩ | ⟨rfl, -⟩⟩ := findLast_cases dataDisks_pure hprimary
    · have hi' : i < cfg.disks / 2 := by omega
      simp only [ne_eq, hnone, not_false_eq_true, if_true, (copyDisks_returns hm hi').bind_iff,
        (setDataDisks_returns hm hi' _).bind_iff]
      exact ⟨_, setCopyDisks_returns (s := s.withMeta { m with
        dataDisks := update m.dataDisks i (m.copyDisks i) }) rfl hi' (-1)⟩
    · exact absurd rfl hnone

omit hn in
/-- With an even number of disks the arithmetic of the reserve disk stays inside the tables. -/
theorem failWithReserve_returns (heven : cfg.disks % 2 = 0) (hnum : m.numOfDisks = cfg.disks / 2)
    (h₁ : 1 ≤ d) (h₂ : d ≤ cfg.disks) :
    ∃ m', Returns (failWithReserve cfg d m) s () (s.withMeta m') := by
  rw [failWithReserve, hnum]
  by_cases hd : (d : ℤ) ≤ (cfg.disks / 2 : ℕ)
  · have hi : d - 1 < cfg.disks / 2 := by omega
    rw [if_pos hd, show (d : ℤ) - 1 = (d - 1 : ℕ) by omega]
    simp only [(copyDisks_returns hm hi).bind_iff, (setDataDisks_returns hm hi _).bind_iff]
    have hstore := setCopyDisks_returns (s := s.withMeta { m with
      dataDisks := update m.dataDisks (d - 1) (m.copyDisks (d - 1)) }) rfl hi m.reserveDisk
    simp only [hstore.bind_iff]
    exact ⟨_, setMetadata_returns rfl⟩
  · have hi : cfg.disks - d < cfg.disks / 2 := by omega
    rw [if_neg hd, show (cfg.disks : ℤ) - d = (cfg.disks - d : ℕ) by omega]
    simp only [(setCopyDisks_returns hm hi _).bind_iff]
    exact ⟨_, setMetadata_returns rfl⟩

/-- The change of roles after a failure always returns. -/
theorem failRoles_returns (heven : cfg.disks % 2 = 0)
    (hnum : m.type.plain = false → m.numOfDisks = cfg.disks / 2) (h₁ : 1 ≤ d) (h₂ : d ≤ cfg.disks) :
    ∃ m', Returns (failRoles cfg d) s () (s.withMeta m') := by
  cases hplain : m.type.plain with
  | true =>
    exact ⟨m, by simpa [Machine.withMeta_self hm] using failRoles_plain (x := (d : ℤ)) hm hplain⟩
  | false =>
    simp only [failRoles, (metadata_returns hm).bind_iff, hplain, Bool.false_eq_true, if_false]
    by_cases hres : m.reserveDisk ≠ -1 ∧ m.reserveDisk ≠ 0
    · simp only [if_pos hres]
      exact failWithReserve_returns hm heven (hnum hplain) h₁ h₂
    · simp only [if_neg hres]
      exact failWithoutReserve_returns hn hm (hnum hplain) d

omit hn in
/-- The change of roles after a repair always returns. -/
theorem repairRoles_returns (hnum : m.type.plain = false → m.numOfDisks = cfg.disks / 2) (x : ℤ) :
    ∃ m', Returns (repairRoles cfg x) s () (s.withMeta m') := by
  cases hplain : m.type.plain with
  | true =>
    exact ⟨m, by simpa [Machine.withMeta_self hm] using repairRoles_plain (x := x) hm hplain⟩
  | false =>
    have hnum := hnum hplain
    obtain ⟨hdata, hcopy⟩ := columns_return hm hnum
    obtain ⟨hole, hhole⟩ := findHole_returns hdata
    simp only [repairRoles, (metadata_returns hm).bind_iff, hplain, Bool.false_eq_true,
      if_false, hhole.bind_iff]
    cases hole with
    | some i =>
      have hi := ((findHole_cases dataDisks_pure hhole).2 i rfl).2
      exact ⟨_, setDataDisks_returns hm (by omega) x⟩
    | none =>
      obtain ⟨hole, hhole'⟩ := findHole_returns hcopy
      simp only [hhole'.bind_iff]
      cases hole with
      | some i =>
        have hi := ((findHole_cases copyDisks_pure hhole').2 i rfl).2
        exact ⟨_, setCopyDisks_returns hm (by omega) x⟩
      | none => exact ⟨_, setMetadata_returns hm⟩

end Roles

theorem Upkept.numOfDisks_mirror (hs : Upkept cfg t m) (ht : ∀ v, t ≠ .other v)
    (hplain : m.type.plain = false) : m.numOfDisks = cfg.disks / 2 := by
  rw [hs.type] at hplain
  rw [hs.numOfDisks, numOfDisksOf_mirror ht hplain]

/-- **Failures, repairs and questions always return.** -/
theorem Upkept.returns (hn : 2 ≤ cfg.disks) (heven : cfg.disks % 2 = 0) (ht : ∀ v, t ≠ .other v)
    (hs : Upkept cfg t m) (hm : s.raidMetadata = some m) (hc : c.isUpkeep = true) :
    ∃ r s', Returns (exec cfg c) s r s' := by
  cases c with
  | diskFailRaid x =>
    rcases diskFailRaid_idle_or s x with ⟨r, hidle⟩ | ⟨m₁, d, ha, hd⟩
    · exact ⟨r, s, hidle⟩
    · obtain rfl := Option.mem_unique hm ha.1
      obtain ⟨m', hroles⟩ := failRoles_returns (s := s.withMeta (markDead m d)) hn rfl heven
        (fun hplain => hs.numOfDisks_mirror ht hplain) ha.2.2.2.1 ha.2.2.2.2
      obtain ⟨s', hwb, -⟩ := writeback_returns cfg (s := s.withMeta m') rfl
      exact ⟨_, s', returns_exec_diskFailRaid.2
        ⟨0, (returns_diskFailRaid ha).2 ⟨rfl, .inr ⟨hd, _, hroles, hwb⟩⟩, rfl⟩⟩
  | diskRepairedRaid x =>
    rcases diskRepairedRaid_idle_or s x with ⟨r, hidle⟩ | ⟨m₁, d, ha, hd⟩
    · exact ⟨r, s, hidle⟩
    · obtain rfl := Option.mem_unique hm ha.1
      obtain ⟨m', hroles⟩ := repairRoles_returns (s := s.withMeta (markRepaired m d)) rfl
        (fun hplain => hs.numOfDisks_mirror ht hplain) d
      obtain ⟨s', hwb, -⟩ := writeback_returns cfg (s := s.withMeta m') rfl
      exact ⟨_, s', returns_exec_diskRepairedRaid.2
        ⟨0, (returns_diskRepairedRaid ha).2 ⟨rfl, .inr ⟨hd, _, hroles, hwb⟩⟩, rfl⟩⟩
  | infoRaid =>
    obtain ⟨v, hv⟩ := infoRaid_returns (Nat.le_of_succ_le hn) s
    exact ⟨_, _, returns_exec_infoRaid.2 ⟨v, hv, rfl⟩⟩
  | _ => cases hc

/-! ### One call -/

/-- Metadata with the shape of `m`. -/
theorem Upkept.of_shape (hs : Upkept cfg t m) (h : m'.shape = m.shape) : Upkept cfg t m' := by
  obtain ⟨hinit, hrest⟩ := Prod.mk.inj h
  obtain ⟨htype, hrest⟩ := Prod.mk.inj hrest
  obtain ⟨hnum, -⟩ := Prod.mk.inj hrest
  exact ⟨hinit.trans hs.raidInitialized, htype.trans hs.type, hnum.trans hs.numOfDisks⟩

/-- There is an array of type `t` in memory, and the copies are current. -/
structure CurrentArray (cfg : Config) (t : RaidType) (s : Machine) : Prop where
  memory : ∃ m, s.raidMetadata = some m ∧ Upkept cfg t m
  current : CopiesCurrent cfg s

theorem CurrentArray.ready (hs : CurrentArray cfg t s) : s.ready = true := by
  obtain ⟨m, hm, hup⟩ := hs.memory
  rw [Machine.ready, hm]
  exact hup.raidInitialized

/-- A question for the size of an array in memory changes nothing. -/
theorem CurrentArray.fetched (hs : CurrentArray cfg t s) : fetched cfg s = s := by
  rw [RaidSystem.fetched, if_pos hs.ready]

/-- **Every call keeps the copies current**, and leaves that of a disk alone which is dead
afterwards. -/
theorem CurrentArray.step (hn : 1 ≤ cfg.disks) (hs : CurrentArray cfg t s) (hc : c.isUpkeep = true)
    (h : Returns (exec cfg c) s r s') :
    CurrentArray cfg t s' ∧
      ∀ d m', s'.raidMetadata = some m' → m'.Dead d → s'.super d = s.super d := by
  obtain ⟨m, hm, hup⟩ := id hs.memory
  have hsaved : ∀ m' s₁, m'.shape = m.shape → s₁.super = s.super →
      Saved cfg (fun e => ¬ m'.Dead e) m' s₁ s' → CurrentArray cfg t s' ∧
        ∀ d m', s'.raidMetadata = some m' → m'.Dead d → s'.super d = s.super d := by
    intro m' s₁ hshape hsuper hsaved
    refine ⟨⟨⟨m', hsaved.raidMetadata, hup.of_shape hshape⟩, .saved hsaved⟩, ?_⟩
    intro d m'' hm'' hd
    obtain rfl := Option.mem_unique hsaved.raidMetadata hm''
    rw [hsaved.super_dead d (not_not.2 hd), hsuper]
  cases metaStep_of_returns hn h with
  | nothing hm' hsuper =>
    refine ⟨⟨⟨m, hm'.trans hm, hup⟩, ?_⟩, fun d _ _ _ => by rw [hsuper]⟩
    rw [CopiesCurrent, hm', hsuper]
    exact hs.current
  | fail ha hd hroles hm' hsuper hsave =>
    obtain rfl := Option.mem_unique hm ha.1
    have hshape := shape_of_roles roleFrame_shape.failRoles hroles hm'
    exact hsaved _ _ hshape hsuper hsave
  | repair ha hd hroles hm' hsuper hsave =>
    obtain rfl := Option.mem_unique hm ha.1
    have hshape := shape_of_roles roleFrame_shape.repairRoles hroles hm'
    exact hsaved _ _ hshape hsuper hsave
  | load =>
    rw [hs.fetched]
    exact ⟨hs, fun _ _ _ _ => rfl⟩
  | access hc' => cases c <;> simp [Call.isUpkeep, Call.isAccess] at hc hc'
  | _ => cases hc

/-! ### Runs -/

/-- A disk that stays dead keeps its copy. -/
theorem CurrentArray.dead_keeps (hn : 1 ≤ cfg.disks) (hs : CurrentArray cfg t s)
    (h : Relation.ReflTransGen (StepsDead cfg d) s s') : s'.super d = s.super d := by
  -- the array stays current along the way
  have hrun : CurrentArray cfg t s' ∧ s'.super d = s.super d := by
    induction h with
    | refl => exact ⟨hs, rfl⟩
    | tail _ hstep ih =>
      obtain ⟨⟨c, r, hc, hret⟩, m', hm', hd⟩ := hstep
      obtain ⟨hs', hkeep⟩ := ih.1.step hn hc hret
      exact ⟨hs', (hkeep d m' hm' hd).trans ih.2⟩
  exact hrun.2

/-- After `init_raid` the copies are current. -/
theorem exec_initRaid_current (hn : 1 ≤ cfg.disks) (ht : ∀ v, t ≠ .other v) (s : Machine) :
    ∃ s', Returns (exec cfg (.initRaid t.code)) s { code := 0 } s' ∧ CurrentArray cfg t s' := by
  obtain ⟨m, hm, -⟩ := fetched_raidMetadata hn s
  obtain ⟨s', hr, hsaved⟩ := initRaid_returns hn t hm
  refine ⟨s', returns_exec_initRaid.2 ⟨0, by rwa [ofInt_code ht], rfl⟩,
    ⟨_, hsaved.raidMetadata, ?_⟩, ?_⟩
  · exact ⟨initMeta_raidInitialized cfg t m, initMeta_type cfg t m, initMeta_numOfDisks cfg t m⟩
  · intro m' hm' e he
    obtain rfl := Option.mem_unique hsaved.raidMetadata hm'
    rw [hsaved.super_live e he.1 he.2.1 trivial]

/-- **Every live disk carries the current metadata** after `init_raid` on any disks and any run of
failures, repairs and questions, all of which return; a disk keeps the copy that it had when it
failed as long as it is dead. -/
theorem copies_current (hn : 2 ≤ cfg.disks) (heven : cfg.disks % 2 = 0) (ht : ∀ v, t ≠ .other v)
    (s₀ : Machine) :
    ∃ s₁, Returns (exec cfg (.initRaid t.code)) s₀ { code := 0 } s₁ ∧
      ∀ h s, Reach (exec cfg) (fun _ _ c => c.isUpkeep = true) s₁ h s →
        s.ready = true ∧ CopiesCurrent cfg s ∧
        (∀ c, c.isUpkeep = true → ∃ r s', Returns (exec cfg c) s r s') ∧
        ∀ d s', Relation.ReflTransGen (StepsDead cfg d) s s' → s'.super d = s.super d := by
  have hn₁ : 1 ≤ cfg.disks := Nat.le_of_succ_le hn
  obtain ⟨s₁, hinit, hs₁⟩ := exec_initRaid_current hn₁ ht s₀
  refine ⟨s₁, hinit, fun h s hreach => ?_⟩
  have hs : CurrentArray cfg t s := by
    refine hreach.inv (fun _ s => CurrentArray cfg t s) hs₁ ?_
    intro _ _ _ _ _ hs hc hret
    exact (hs.step hn₁ hc hret).1
  obtain ⟨m, hm, hup⟩ := hs.memory
  exact ⟨hs.ready, hs.current, fun c hc => hup.returns hn heven ht hm hc,
    fun d s' h => hs.dead_keeps hn₁ h⟩

/-- Disk `2` fails and is repaired, and then disk `3` fails. -/
def upkeep : List Call := [.diskFailRaid 2, .infoRaid, .diskRepairedRaid 2, .diskFailRaid 3]

/-- After the run above the copy on disk `3` is the only one that counts no dead disk. -/
theorem copies_current_four : 2 ≤ (smallConfig 4).disks ∧ (smallConfig 4).disks % 2 = 0 ∧
    ∃ s₁, Returns (exec (smallConfig 4) (.initRaid RaidType.RAID1.code)) blankMachine { code := 0 }
      s₁ ∧
      (∀ h s, Reach (exec (smallConfig 4)) (fun _ _ c => c.isUpkeep = true) s₁ h s →
        s.ready = true ∧ CopiesCurrent (smallConfig 4) s ∧
        (∀ c, c.isUpkeep = true → ∃ r s', Returns (exec (smallConfig 4) c) s r s') ∧
        ∀ d s', Relation.ReflTransGen (StepsDead (smallConfig 4) d) s s' → s'.super d = s.super d) ∧
      CopiesCurrent (smallConfig 4) (Reach.after (exec (smallConfig 4)) upkeep s₁) ∧
      ([1, 2, 3, 4].map fun d =>
        ((Reach.after (exec (smallConfig 4)) upkeep s₁).super d).numDeadDisks) = [1, 1, 0, 1] := by
  have hn : 2 ≤ (smallConfig 4).disks := by decide
  have heven : (smallConfig 4).disks % 2 = 0 := by decide
  obtain ⟨_, ⟨hinit, rfl⟩, hrun⟩ :=
    copies_current (t := .RAID1) hn heven nofun blankMachine
  exact ⟨hn, heven, _, ⟨hinit, rfl⟩, hrun,
    (hrun upkeep.reverse _ (.of_allows_start (by decide +kernel))).2.1, by decide +kernel⟩

end RaidSystem
