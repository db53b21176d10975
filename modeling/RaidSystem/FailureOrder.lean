/-
**The order of failures.**

When a primary of a mirrored array fails, its copy takes its place; when the copy fails first, the
primary is left alone, and fails later without anything to take its place.  The two orders go
through different branches of `disk_fail_raid`.  Written column by column, what a failure does to
the metadata commutes with what another failure does, and a second failure of the same disk does
nothing; so the metadata depend only on which disks have failed.

Main definitions:

* `failMeta` — what a failure makes of the metadata, without searching the role tables;
* `failAll` — `disk_fail_raid` for the numbers of a list, one after the other;
* `FailuresCommute` — lists with the same members lead to the same metadata.

Main results:

* `failMeta_comm`, `failMeta_idem` — two failures commute, and a repeated failure does nothing;
* `foldl_eq_of_mem_iff` — a fold of such steps depends only on the members of the list;
* `diskFailRaid_failMeta` — `disk_fail_raid` does what `failMeta` says;
* `failures_commute` — **the order of failures does not matter**, for every type of array with an
  even number of disks.
-/

import Mathlib.Data.List.Dedup
import RaidSystem.MirrorRoles

set_option autoImplicit false

/-! ### Folds over commuting, idempotent steps -/

section Fold

variable {α β : Type} {f : β → α → β}

section

variable (hcomm : ∀ b x y, f (f b x) y = f (f b y) x) (hidem : ∀ b x, f (f b x) x = f b x)

include hcomm hidem

/-- A step that is made again later need not be made now. -/
theorem foldl_step_of_mem {a : α} {l : List α} (ha : a ∈ l) (b : β) :
    l.foldl f (f b a) = l.foldl f b := by
  induction l generalizing b with
  | nil => cases ha
  | cons x l ih =>
    rw [List.foldl_cons, List.foldl_cons]
    rcases List.mem_cons.1 ha with rfl | hmem
    · rw [hidem]
    · rw [hcomm b a x, ih hmem]

theorem foldl_dedup [DecidableEq α] (l : List α) (b : β) :
    l.dedup.foldl f b = l.foldl f b := by
  induction l generalizing b with
  | nil => rfl
  | cons x l ih =>
    by_cases hx : x ∈ l
    · rw [List.dedup_cons_of_mem hx, List.foldl_cons, foldl_step_of_mem hcomm hidem hx, ih]
    · rw [List.dedup_cons_of_notMem hx, List.foldl_cons, List.foldl_cons, ih]

/-- **Only the members of the list matter.** -/
theorem foldl_eq_of_mem_iff [DecidableEq α] {l₁ l₂ : List α} (h : ∀ x, x ∈ l₁ ↔ x ∈ l₂) (b : β) :
    l₁.foldl f b = l₂.foldl f b := by
  have hperm : l₁.dedup.Perm l₂.dedup := by
    refine (List.perm_ext_iff_of_nodup l₁.nodup_dedup l₂.nodup_dedup).2 fun x => ?_
    rw [List.mem_dedup, List.mem_dedup]
    exact h x
  have : RightCommutative f := ⟨hcomm⟩
  rw [← foldl_dedup hcomm hidem l₁, ← foldl_dedup hcomm hidem l₂]
  exact hperm.foldl_eq b

end

end Fold

namespace RaidSystem

open Prog Function

variable {cfg : Config} {t : RaidType} {s s' : Machine} {m : Raid} {c : Call} {r : Reply} {d : ℕ}
  {x y : ℤ}

/-! ### Definitions -/

/-- The role tables after disk `d` has failed: in the column where it was the primary the copy takes
its place, and in the column where it was either of the two there is no copy any more. -/
def failColumns (cfg : Config) (m : Raid) (d : ℕ) : Raid :=
  { m with
    dataDisks := fun i =>
      if i < cfg.disks / 2 ∧ m.dataDisks i = d then m.copyDisks i else m.dataDisks i
    copyDisks := fun i =>
      if i < cfg.disks / 2 ∧ (m.dataDisks i = d ∨ m.copyDisks i = d) then -1 else m.copyDisks i }

/-- What the failure of disk `x` makes of the metadata. -/
def failMeta (cfg : Config) (m : Raid) (x : ℤ) : Raid :=
  if 1 ≤ x ∧ x ≤ cfg.disks ∧ ¬ m.Dead x.toNat then
    if m.type.plain then markDead m x.toNat else failColumns cfg (markDead m x.toNat) x.toNat
  else m

/-- `disk_fail_raid` for each number of a list. -/
def failAll (cfg : Config) : List ℤ → Kernel Unit
  | [] => pure ()
  | x :: l => do
    let _ ← diskFailRaid cfg x
    failAll cfg l

/-- An array is created on zero-filled disks; and then, after every run of failures and repairs,
two lists of disk numbers with the same members, failed in the order of the lists, lead to the same
metadata in memory. -/
def FailuresCommute (cfg : Config) (t : RaidType) : Prop :=
  ∀ s₀ : Machine, s₀.Blank → ∃ s₁, Returns (exec cfg (.initRaid t.code)) s₀ { code := 0 } s₁ ∧
    ∀ h s, Reach (exec cfg) (fun _ _ c => c.isFailureOrRepair = true) s₁ h s →
      ∀ l₁ l₂ : List ℤ, (∀ x, x ∈ l₁ ↔ x ∈ l₂) → ∃ s₁ s₂ m,
        Returns (failAll cfg l₁) s () s₁ ∧ Returns (failAll cfg l₂) s () s₂ ∧
          s₁.raidMetadata = some m ∧ s₂.raidMetadata = some m

/-! ### Failures commute -/

theorem failMeta_of_dead (h : m.Dead x.toNat) : failMeta cfg m x = m :=
  if_neg fun hx => hx.2.2 h

theorem failMeta_of_out (h : ¬ (1 ≤ x ∧ x ≤ cfg.disks)) : failMeta cfg m x = m :=
  if_neg fun hx => h ⟨hx.1, hx.2.1⟩

theorem failMeta_of_live (h₁ : 1 ≤ x) (h₂ : x ≤ cfg.disks) (hd : ¬ m.Dead x.toNat) :
    failMeta cfg m x = if m.type.plain then markDead m x.toNat
      else failColumns cfg (markDead m x.toNat) x.toNat :=
  if_pos ⟨h₁, h₂, hd⟩

theorem failMeta_type : (failMeta cfg m x).type = m.type := by
  unfold failMeta
  split_ifs <;> rfl

/-- The failure of a disk marks that disk dead and no other. -/
theorem failMeta_diskState (h₁ : 1 ≤ x) (h₂ : x ≤ cfg.disks) :
    (failMeta cfg m x).diskState = update m.diskState (x.toNat - 1) .DEAD := by
  unfold failMeta
  split_ifs with h hp
  · rfl
  · rfl
  · have hd : m.diskState (x.toNat - 1) = .DEAD := not_not.1 fun hd => h ⟨h₁, h₂, hd⟩
    rw [← hd, update_eq_self]

theorem dead_failMeta (h₁ : 1 ≤ x) (h₂ : x ≤ cfg.disks) : (failMeta cfg m x).Dead x.toNat := by
  rw [Raid.Dead, failMeta_diskState h₁ h₂, update_self]

theorem dead_failMeta_iff (h₁ : 1 ≤ x) (h₂ : x ≤ cfg.disks) (hy : 1 ≤ y) (hxy : x ≠ y) :
    (failMeta cfg m x).Dead y.toNat ↔ m.Dead y.toNat := by
  rw [Raid.Dead, failMeta_diskState h₁ h₂, update_of_ne (by omega)]
  rfl

/-- **A repeated failure does nothing.** -/
theorem failMeta_idem (m : Raid) (x : ℤ) :
    failMeta cfg (failMeta cfg m x) x = failMeta cfg m x := by
  by_cases hx : 1 ≤ x ∧ x ≤ cfg.disks
  · exact failMeta_of_dead (dead_failMeta hx.1 hx.2)
  · rw [failMeta_of_out hx]

theorem markDead_comm {e : ℕ} (hde : d - 1 ≠ e - 1) :
    markDead (markDead m d) e = markDead (markDead m e) d := by
  unfold markDead
  rw [update_comm hde.symm]

/-- Two failures in the same column: whichever comes first, the column ends up with what is left of
the two disks. -/
theorem failColumns_comm {e : ℕ} (hde : d ≠ e) :
    failColumns cfg (failColumns cfg m d) e = failColumns cfg (failColumns cfg m e) d := by
  have hde' : (d : ℤ) ≠ e := by omega
  unfold failColumns
  congr 1
  · funext i
    grind
  · funext i
    grind

theorem markDead_failColumns (m : Raid) (d e : ℕ) :
    markDead (failColumns cfg m d) e = failColumns cfg (markDead m e) d := rfl

/-- **Two failures commute.** -/
theorem failMeta_comm (m : Raid) (x y : ℤ) :
    failMeta cfg (failMeta cfg m x) y = failMeta cfg (failMeta cfg m y) x := by
  by_cases hxy : x = y
  · rw [hxy]
  by_cases hx : 1 ≤ x ∧ x ≤ cfg.disks
  swap
  · rw [failMeta_of_out hx, failMeta_of_out hx]
  by_cases hy : 1 ≤ y ∧ y ≤ cfg.disks
  swap
  · rw [failMeta_of_out hy, failMeta_of_out hy]
  -- whether the one disk is dead does not depend on the failure of the other
  have hdx := dead_failMeta_iff (m := m) hy.1 hy.2 hx.1 (Ne.symm hxy)
  have hdy := dead_failMeta_iff (m := m) hx.1 hx.2 hy.1 hxy
  by_cases hx' : m.Dead x.toNat
  · rw [failMeta_of_dead hx', failMeta_of_dead (hdx.2 hx')]
  by_cases hy' : m.Dead y.toNat
  · rw [failMeta_of_dead hy', failMeta_of_dead (hdy.2 hy')]
  rw [failMeta_of_live hx.1 hx.2 (mt hdx.1 hx'), failMeta_of_live hy.1 hy.2 (mt hdy.1 hy'),
    failMeta_type, failMeta_type, failMeta_of_live hx.1 hx.2 hx', failMeta_of_live hy.1 hy.2 hy']
  have hne : x.toNat - 1 ≠ y.toNat - 1 := by omega
  split_ifs with hp
  · exact markDead_comm hne
  · rw [markDead_failColumns, markDead_failColumns, markDead_comm hne, failColumns_comm (by omega)]

/-! ### What `disk_fail_raid` does -/

/-- The metadata of an array without roles, or of a mirrored one. -/
inductive OrderlyMeta (cfg : Config) (t : RaidType) (m : Raid) : Prop
  | plain : t.plain = true → m.type = t → m.raidInitialized = true → OrderlyMeta cfg t m
  | mirror : MirrorConfig cfg t → MirrorMeta cfg t m → OrderlyMeta cfg t m

namespace OrderlyMeta

theorem raidInitialized (hs : OrderlyMeta cfg t m) : m.raidInitialized = true := by
  cases hs with
  | plain _ _ hi => exact hi
  | mirror _ hs => exact hs.raidInitialized

/-- The search of the role tables finds the one column in which the disk has a role. -/
theorem eq_failColumns (hs : MirrorMeta cfg t m) {m' : Raid} {i : ℕ} (hi : i < cfg.disks / 2)
    (h : m.dataDisks i = d ∧ m' = promoteCopy (markDead m d) i ∨
      m.copyDisks i = d ∧ m' = dropCopy (markDead m d) i) :
    m' = failColumns cfg (markDead m d) d := by
  have hneg : (d : ℤ) ≠ -1 := by omega
  rcases h with ⟨hd, rfl⟩ | ⟨hd, rfl⟩
  · -- the disk is the primary of column `i`, and has no other role
    have hdata : ∀ j < cfg.disks / 2, m.dataDisks j = d → j = i := fun j hj hj' =>
      hs.roles.data_inj j hj i hi (hj'.trans hd.symm) (by omega)
    have hcopy : ∀ j < cfg.disks / 2, m.copyDisks j ≠ d := fun j hj hj' =>
      absurd (hs.roles.disjoint i hi j hj (hd.trans hj'.symm)) (by omega)
    unfold promoteCopy failColumns markDead
    congr 1
    · funext j
      rcases eq_or_ne j i with rfl | hne
      · rw [update_self, if_pos ⟨hi, hd⟩]
      · rw [update_of_ne hne, if_neg fun h => hne (hdata j h.1 h.2)]
    · funext j
      rcases eq_or_ne j i with rfl | hne
      · rw [update_self, if_pos ⟨hi, .inl hd⟩]
      · rw [update_of_ne hne,
          if_neg fun h => h.2.elim (fun h' => hne (hdata j h.1 h')) (hcopy j h.1)]
  · -- the disk is the copy of column `i`
    have hdata : ∀ j < cfg.disks / 2, m.dataDisks j ≠ d := fun j hj hj' =>
      absurd (hs.roles.disjoint j hj i hi (hj'.trans hd.symm)) (by omega)
    have hcopy : ∀ j < cfg.disks / 2, m.copyDisks j = d → j = i := fun j hj hj' =>
      hs.roles.copy_inj j hj i hi (hj'.trans hd.symm) (by omega)
    unfold dropCopy failColumns markDead
    congr 1
    · funext j
      rw [if_neg fun h => hdata j h.1 h.2]
    · funext j
      rcases eq_or_ne j i with rfl | hne
      · rw [update_self, if_pos ⟨hi, .inr hd⟩]
      · rw [update_of_ne hne, if_neg fun h => h.2.elim (hdata j h.1) fun h' => hne (hcopy j h.1 h')]

section

variable (hs : OrderlyMeta cfg t m) (hm : s.raidMetadata = some m)

include hs hm

/-- **`disk_fail_raid` returns, and does to the metadata what `failMeta` says.** -/
theorem diskFailRaid_failMeta (x : ℤ) :
    ∃ c s', Returns (diskFailRaid cfg x) s c s' ∧ s'.raidMetadata = some (failMeta cfg m x) ∧
      OrderlyMeta cfg t (failMeta cfg m x) := by
  by_cases haddr : ∃ m d, Addresses cfg s x m d
  swap
  · have hout : ¬ (1 ≤ x ∧ x ≤ cfg.disks) := fun hx =>
      haddr ⟨m, x.toNat, hm, hs.raidInitialized, by omega, by omega, by omega⟩
    rw [failMeta_of_out hout]
    exact ⟨-1, s, (diskFailRaid_refused haddr).2 ⟨rfl, rfl⟩, hm, hs⟩
  obtain ⟨m', d, haddr⟩ := haddr
  obtain rfl := Option.mem_unique hm haddr.1
  obtain ⟨-, -, rfl, h₁, h₂⟩ := id haddr
  by_cases hd : m.Dead d
  · rw [failMeta_of_dead hd]
    exact ⟨0, s, (returns_diskFailRaid haddr).2 ⟨rfl, .inl ⟨hd, rfl⟩⟩, hm, hs⟩
  rw [failMeta_of_live (by omega) (by omega) hd, Int.toNat_natCast]
  cases hs with
  | plain hp htype hi =>
    have hp' : m.type.plain = true := by rwa [htype]
    rw [if_pos hp']
    obtain ⟨s', hr⟩ := diskFailRaid_plain_returns haddr hp' hd
    exact ⟨0, s', hr, (diskFailRaid_plain haddr hp' hd hr).2.raidMetadata, .plain hp htype hi⟩
  | mirror hc hs =>
    have hp : ¬ m.type.plain = true := by
      rw [hs.type, hc.not_plain]
      exact Bool.false_ne_true
    rw [if_neg hp]
    obtain ⟨s', m', i, hr, -, hsaved, hs', hi, hrole⟩ := diskFailRaid_mirror hc hs haddr hd
    obtain rfl := eq_failColumns hs hi hrole
    exact ⟨0, s', hr, hsaved.raidMetadata, .mirror hc hs'⟩

theorem failAll_returns (l : List ℤ) :
    ∃ s', Returns (failAll cfg l) s () s' ∧
      s'.raidMetadata = some (l.foldl (failMeta cfg) m) := by
  induction l generalizing s m with
  | nil => exact ⟨s, returns_pure.2 ⟨rfl, rfl⟩, hm⟩
  | cons x l ih =>
    obtain ⟨c, s₁, hr, hm₁, hs₁⟩ := hs.diskFailRaid_failMeta hm x
    obtain ⟨s', hr', hm'⟩ := ih hs₁ hm₁
    exact ⟨s', returns_bind.2 ⟨c, s₁, hr, hr'⟩, hm'⟩

/-! ### Runs -/

theorem repair (hr : Returns (exec cfg (.diskRepairedRaid x)) s r s') :
    ∃ m', s'.raidMetadata = some m' ∧ OrderlyMeta cfg t m' := by
  cases hs with
  | plain hp htype hi =>
    rcases diskRepairedRaid_idle_or s x with ⟨_, hidle⟩ | ⟨m', d, haddr, hd⟩
    · obtain ⟨-, rfl⟩ := hr.unique hidle
      exact ⟨m, hm, .plain hp htype hi⟩
    · obtain rfl := Option.mem_unique hm haddr.1
      obtain ⟨c, hcall, -⟩ := returns_exec_diskRepairedRaid.1 hr
      have hsaved := (diskRepairedRaid_plain haddr (by rwa [htype]) hd hcall).2
      exact ⟨_, hsaved.raidMetadata, .plain hp htype hi⟩
  | mirror hc hs =>
    obtain ⟨m', hm', hs'⟩ := hs.step hc hm (c := .diskRepairedRaid x) rfl hr
    exact ⟨m', hm', .mirror hc hs'⟩

theorem step (hok : c.isFailureOrRepair = true) (hr : Returns (exec cfg c) s r s') :
    ∃ m', s'.raidMetadata = some m' ∧ OrderlyMeta cfg t m' := by
  cases c with
  | diskFailRaid x =>
    obtain ⟨c, hcall, -⟩ := returns_exec_diskFailRaid.1 hr
    obtain ⟨_, _, hcall', hm', hs'⟩ := hs.diskFailRaid_failMeta hm x
    obtain ⟨-, rfl⟩ := hcall.unique hcall'
    exact ⟨_, hm', hs'⟩
  | diskRepairedRaid x => exact hs.repair hm hr
  | _ => cases hok

end

end OrderlyMeta

/-- The metadata that `init_raid` makes on zero-filled disks. -/
theorem orderlyMeta_freshMeta (hn : 2 ≤ cfg.disks) (heven : cfg.disks % 2 = 0)
    (ht : ∀ v, t ≠ .other v) : OrderlyMeta cfg t (freshMeta cfg t) := by
  cases t with
  | RAID0 => exact .plain rfl rfl rfl
  | RAID4 => exact .plain rfl rfl rfl
  | RAID5 => exact .plain rfl rfl rfl
  | RAID1 =>
    have hc : MirrorConfig cfg .RAID1 := ⟨.inl rfl, hn, heven⟩
    exact .mirror hc hc.mirrorMeta_freshMeta
  | RAID0_1 =>
    have hc : MirrorConfig cfg .RAID0_1 := ⟨.inr rfl, hn, heven⟩
    exact .mirror hc hc.mirrorMeta_freshMeta
  | other v => exact absurd rfl (ht v)

/-- **The order of failures does not matter**, nor how often a disk fails. -/
theorem failures_commute (hn : 2 ≤ cfg.disks) (heven : cfg.disks % 2 = 0) (ht : ∀ v, t ≠ .other v) :
    FailuresCommute cfg t := by
  intro s₀ hs₀
  obtain ⟨s₁, hr, hs₁⟩ := exec_initRaid_blank (Nat.le_of_succ_le hn) ht hs₀
  refine ⟨s₁, hr, ?_⟩
  intro h s hreach l₁ l₂ hmem
  have hI : ∃ m, s.raidMetadata = some m ∧ OrderlyMeta cfg t m := by
    refine hreach.inv (fun _ s => ∃ m, s.raidMetadata = some m ∧ OrderlyMeta cfg t m)
      ⟨freshMeta cfg t, hs₁.raidMetadata, orderlyMeta_freshMeta hn heven ht⟩ ?_
    rintro h s c r s' ⟨m, hm, hs⟩ hok hret
    exact hs.step hm hok hret
  obtain ⟨m, hm, hs⟩ := hI
  obtain ⟨t₁, hr₁, hm₁⟩ := hs.failAll_returns hm l₁
  obtain ⟨t₂, hr₂, hm₂⟩ := hs.failAll_returns hm l₂
  refine ⟨t₁, t₂, _, hr₁, hr₂, hm₁, ?_⟩
  rw [hm₂, foldl_eq_of_mem_iff failMeta_comm failMeta_idem hmem]

/-- Disk `2` has failed before; then disks `1` and `4` do. -/
theorem failures_commute_four : 2 ≤ (smallConfig 4).disks ∧ (smallConfig 4).disks % 2 = 0 ∧
    FailuresCommute (smallConfig 4) .RAID0_1 ∧
    ∃ s₁ s₂ s₃ m, Returns (exec (smallConfig 4) (.initRaid 2)) blankMachine { code := 0 } s₁ ∧
      Returns (failAll (smallConfig 4) [1, 4])
        (Reach.after (exec (smallConfig 4)) [.diskFailRaid 2] s₁) () s₂ ∧
      Returns (failAll (smallConfig 4) [4, 1, 4])
        (Reach.after (exec (smallConfig 4)) [.diskFailRaid 2] s₁) () s₃ ∧
      s₂.raidMetadata = some m ∧ s₃.raidMetadata = some m := by
  have hn : 2 ≤ (smallConfig 4).disks := by decide
  have hcommute : FailuresCommute (smallConfig 4) .RAID0_1 := failures_commute hn (by decide) nofun
  obtain ⟨_, ⟨hinit, rfl⟩, hrun⟩ := hcommute blankMachine blankMachine_blank
  obtain ⟨s₂, s₃, m, h₂, h₃, hm⟩ := hrun [.diskFailRaid 2].reverse _
    (.of_allows_start (by decide +kernel)) [1, 4] [4, 1, 4] (by simp [or_comm])
  exact ⟨hn, by decide, hcommute, _, s₂, s₃, m, ⟨hinit, rfl⟩, h₂, h₃, hm⟩

end RaidSystem
