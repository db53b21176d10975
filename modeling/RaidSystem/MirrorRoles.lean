/-
**The roles of the disks of a mirrored array.**

`disk_fail_raid` looks a disk up among the primaries and then among the copies, and takes for
granted that it is found: otherwise it stores to `copy_disks[-1]`.  `disk_repaired_raid` looks for
an empty place, and makes the disk a reserve disk if there is none.  With an even number of disks
neither fallback is ever taken, whatever has failed and been repaired before.

Main definitions:

* `RolesConsistent` — the role tables name every disk that is not dead, once, and no other disk;
* `SearchesSucceed` — the searches of the next failure and of the next repair find what they look
  for.

Main results:

* `roles_consistent` — **both hold along every run**, and every failure and every repair returns.
-/

import RaidSystem.MirrorArray

set_option autoImplicit false

namespace RaidSystem

open Prog

variable {cfg : Config} {t : RaidType} {h : List Call} {s s' : Machine} {m : Raid} {r : Reply}

/-! ### Definitions -/

/-- The entries of the role tables other than `-1` are distinct, and are exactly the disks that are
not dead; a column without a primary has no copy; and there is no reserve disk. -/
structure RolesConsistent (cfg : Config) (m : Raid) : Prop where
  data_distinct : ∀ i < cfg.disks / 2, ∀ j < cfg.disks / 2,
    m.dataDisks i = m.dataDisks j → m.dataDisks i ≠ -1 → i = j
  copy_distinct : ∀ i < cfg.disks / 2, ∀ j < cfg.disks / 2,
    m.copyDisks i = m.copyDisks j → m.copyDisks i ≠ -1 → i = j
  data_ne_copy : ∀ i < cfg.disks / 2, ∀ j < cfg.disks / 2,
    m.dataDisks i = m.copyDisks j → m.dataDisks i = -1
  named_iff : ∀ x : ℤ, x ≠ -1 → ((∃ i < cfg.disks / 2, m.dataDisks i = x ∨ m.copyDisks i = x) ↔
    1 ≤ x ∧ x ≤ cfg.disks ∧ ¬ m.Dead x.toNat)
  hole : ∀ i < cfg.disks / 2, m.dataDisks i = -1 → m.copyDisks i = -1
  reserveDisk : m.reserveDisk = -1

/-- The failure of a disk that is not dead finds it as a primary or as a copy, and the repair of a
dead disk finds an empty place. -/
structure SearchesSucceed (cfg : Config) (s : Machine) (m : Raid) : Prop where
  fail : ∀ d, LiveDisk cfg m d → ∀ s₁, s₁ = { s with raidMetadata := some (markDead m d) } →
    (∃ i : ℕ, Returns (findLast (dataDisks cfg) d 0 m.numOfDisks (-1)) s₁ i s₁) ∨
      ∃ i : ℕ, Returns (findLast (copyDisks cfg) d 0 m.numOfDisks (-1)) s₁ i s₁
  repair : ∀ d, 1 ≤ d → d ≤ cfg.disks → m.Dead d →
    ∀ s₁, s₁ = { s with raidMetadata := some (markRepaired m d) } →
      (∃ i, Returns (findHole (dataDisks cfg) 0 m.numOfDisks) s₁ (some i) s₁) ∨
        ∃ i, Returns (findHole (copyDisks cfg) 0 m.numOfDisks) s₁ (some i) s₁

/-- Failures and repairs. -/
def Call.isFailureOrRepair : Call → Bool
  | .diskFailRaid _ | .diskRepairedRaid _ => true
  | _ => false

/-- The array is created on zero-filled disks; and then, after every run of failures and repairs,
the roles are consistent, the searches succeed, and the next failure or repair returns. -/
def RolesStayConsistent (cfg : Config) (t : RaidType) : Prop :=
  ∀ s₀ : Machine, s₀.Blank → ∃ s₁, Returns (exec cfg (.initRaid t.code)) s₀ { code := 0 } s₁ ∧
    ∀ h s, Reach (exec cfg) (fun _ _ c => c.isFailureOrRepair = true) s₁ h s →
      (∃ m, s.raidMetadata = some m ∧ RolesConsistent cfg m ∧ SearchesSucceed cfg s m) ∧
      ∀ c : Call, c.isFailureOrRepair = true → ∃ r s', Returns (exec cfg c) s r s'

/-! ### What the invariant says -/

theorem MirrorMeta.rolesConsistent (hs : MirrorMeta cfg t m) : RolesConsistent cfg m := by
  have hroles := hs.roles
  refine ⟨hroles.data_inj, hroles.copy_inj, hroles.disjoint, ?_, hroles.hole, hs.reserveDisk⟩
  intro x hx
  constructor
  · rintro ⟨i, hi, hid⟩
    -- an entry that is not `-1` names a disk that is not dead
    have hmem : x = -1 ∨ ∃ d : ℕ, x = d ∧ LiveDisk cfg m d := by
      rcases hid with rfl | rfl
      · exact hroles.data_mem i hi
      · exact hroles.copy_mem i hi
    obtain ⟨d, rfl, hd₁, hd₂, hlive⟩ := hmem.resolve_left hx
    rw [Int.toNat_natCast]
    exact ⟨by omega, by omega, hlive⟩
  · rintro ⟨h₁, h₂, hlive⟩
    have hxd : (x.toNat : ℤ) = x := Int.toNat_of_nonneg (by omega)
    rcases hroles.onto x.toNat ⟨by omega, by omega, hlive⟩ with ⟨i, hi, hid⟩ | ⟨i, hi, hid⟩
    · exact ⟨i, hi, .inl (hid.trans hxd)⟩
    · exact ⟨i, hi, .inr (hid.trans hxd)⟩

theorem MirrorMeta.searchesSucceed (hc : MirrorConfig cfg t) (hs : MirrorMeta cfg t m)
    (s : Machine) : SearchesSucceed cfg s m := by
  constructor
  · rintro d hd s₁ rfl
    rw [hs.numOfDisks]
    -- marking the disk dead does not touch the tables
    have hroles : RoleTable (cfg.disks / 2) (LiveDisk cfg m) (markDead m d).dataDisks
        (markDead m d).copyDisks := hs.roles
    rcases hs.roles.onto d hd with ⟨i, hi, hid⟩ | ⟨i, hi, hid⟩
    · exact .inl ⟨i, findLast_dataDisks rfl hroles hi hid⟩
    · exact .inr ⟨i, (findLast_copyDisks rfl hroles hi hid).2⟩
  · rintro d h₁ h₂ hd s₁ rfl
    rw [hs.numOfDisks]
    have heven := hc.even
    obtain ⟨i, hi, hhole⟩ := hs.roles.exists_hole (fun e he => ⟨he.1, by have := he.2.1; omega⟩) h₁
      (by omega) fun hl => hl.2.2 hd
    have hcopy : ∀ l : ℕ, 0 ≤ l → l < 0 + cfg.disks / 2 →
        Returns (copyDisks cfg l) (s.withMeta (markRepaired m d))
          (m.copyDisks l) (s.withMeta (markRepaired m d)) :=
      fun l _ hl => copyDisks_returns (m := markRepaired m d) rfl (by omega)
    have hsome : ∃ i < cfg.disks / 2, m.copyDisks i = -1 := ⟨i, hi, hhole⟩
    obtain ⟨hlt, hfound⟩ := Nat.find_spec hsome
    exact .inr ⟨Nat.find hsome, findHole_first hcopy (Nat.zero_le _) (by omega) hfound
      fun l _ hl hlhole => Nat.find_min hsome hl ⟨by omega, hlhole⟩⟩

/-! ### Runs -/

/-- A failure or a repair keeps the invariant. -/
theorem MirrorMeta.step (hc : MirrorConfig cfg t) (hm : s.raidMetadata = some m)
    (hs : MirrorMeta cfg t m) {c : Call} (hok : c.isFailureOrRepair = true)
    (hr : Returns (exec cfg c) s r s') :
    ∃ m', s'.raidMetadata = some m' ∧ MirrorMeta cfg t m' := by
  cases c with
  | diskFailRaid x =>
    rcases diskFailRaid_mirror_cases hc hm hs hr with rfl | ⟨_, m', _, -, hsaved, hs', -⟩
    · exact ⟨m, hm, hs⟩
    · exact ⟨m', hsaved.raidMetadata, hs'⟩
  | diskRepairedRaid x =>
    rcases diskRepairedRaid_mirror_cases hc hm hs hr with rfl | ⟨_, m', _, -, -, hsaved, hs', -⟩
    · exact ⟨m, hm, hs⟩
    · exact ⟨m', hsaved.raidMetadata, hs'⟩
  | _ => cases hok

/-- Under the invariant every failure and every repair returns. -/
theorem MirrorMeta.call_returns (hc : MirrorConfig cfg t) (hm : s.raidMetadata = some m)
    (hs : MirrorMeta cfg t m) {c : Call} (hok : c.isFailureOrRepair = true) :
    ∃ r s', Returns (exec cfg c) s r s' := by
  cases c with
  | diskFailRaid x =>
    rcases diskFailRaid_idle_or s x with ⟨r, hidle⟩ | ⟨m', d, haddr, hd⟩
    · exact ⟨r, s, hidle⟩
    · obtain rfl := Option.mem_unique hm haddr.1
      obtain ⟨s', _, _, hret, -⟩ := diskFailRaid_mirror hc hs haddr hd
      exact ⟨_, s', returns_exec_diskFailRaid.2 ⟨0, hret, rfl⟩⟩
  | diskRepairedRaid x =>
    rcases diskRepairedRaid_idle_or s x with ⟨r, hidle⟩ | ⟨m', d, haddr, hd⟩
    · exact ⟨r, s, hidle⟩
    · obtain rfl := Option.mem_unique hm haddr.1
      obtain ⟨s', _, _, hret, -⟩ := diskRepairedRaid_mirror hc hs haddr hd
      exact ⟨_, s', returns_exec_diskRepairedRaid.2 ⟨0, hret, rfl⟩⟩
  | _ => cases hok

/-- **The role tables stay consistent** through any failures and repairs, and the searches of
`disk_fail_raid` and `disk_repaired_raid` never come back empty-handed. -/
theorem roles_consistent (hc : MirrorConfig cfg t) : RolesStayConsistent cfg t := by
  intro s₀ hs₀
  obtain ⟨s₁, hr, hs₁⟩ := hc.init_returns hs₀
  refine ⟨s₁, hr, ?_⟩
  intro h s hreach
  have hI : ∃ m, s.raidMetadata = some m ∧ MirrorMeta cfg t m := by
    refine hreach.inv (fun _ s => ∃ m, s.raidMetadata = some m ∧ MirrorMeta cfg t m)
      ⟨freshMeta cfg t, hs₁.raidMetadata, hc.mirrorMeta_freshMeta⟩ ?_
    rintro h s c r s' ⟨m, hm, hs⟩ hok hret
    exact hs.step hc hm hok hret
  obtain ⟨m, hm, hs⟩ := hI
  exact ⟨⟨m, hm, hs.rolesConsistent, hs.searchesSucceed hc s⟩,
    fun c hok => hs.call_returns hc hm hok⟩

/-- A primary and a copy are lost, and the primary comes back as a copy. -/
def failuresAndRepair : List Call := [.diskFailRaid 1, .diskFailRaid 5, .diskRepairedRaid 1]

theorem roles_consistent_six : MirrorConfig (smallConfig 6) .RAID1 ∧
    RolesStayConsistent (smallConfig 6) .RAID1 ∧
    ∃ s₁ m, Returns (exec (smallConfig 6) (.initRaid 1)) blankMachine { code := 0 } s₁ ∧
      (Reach.after (exec (smallConfig 6)) failuresAndRepair s₁).raidMetadata = some m ∧
      RolesConsistent (smallConfig 6) m ∧
      SearchesSucceed (smallConfig 6) (Reach.after (exec (smallConfig 6)) failuresAndRepair s₁) m ∧
      ([0, 1, 2].map m.dataDisks, [0, 1, 2].map m.copyDisks) = ([4, 2, 3], [1, -1, 6]) := by
  have hc : MirrorConfig (smallConfig 6) .RAID1 := ⟨.inl rfl, by decide, by decide⟩
  obtain ⟨_, ⟨hinit, rfl⟩, hrun⟩ := roles_consistent hc blankMachine blankMachine_blank
  obtain ⟨⟨m, hm, hroles, hsearch⟩, -⟩ :=
    hrun failuresAndRepair.reverse _ (.of_allows_start (by decide +kernel))
  have hval : some ([0, 1, 2].map m.dataDisks, [0, 1, 2].map m.copyDisks) =
      some ([4, 2, 3], [1, -1, 6]) := by
    rw [← Option.map_some
      (f := fun m : Raid => ([0, 1, 2].map m.dataDisks, [0, 1, 2].map m.copyDisks)), ← hm]
    decide +kernel
  exact ⟨hc, roles_consistent hc, _, m, ⟨hinit, rfl⟩, hm, hroles, hsearch, Option.some_inj.1 hval⟩

end RaidSystem
