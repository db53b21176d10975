/-
**An invariant of the metadata.**

Whatever is called, in whatever order, on disks that were zero-filled at first, the metadata in
memory and every copy of them are sound: the type is one of the five, the number of disks is the one
for the type, the parity disk of a cached stripe exists, and the entries of the role tables are
numbers of disks or `-1`.  Only `init_raid` has to be called with a type that exists.

The invariant says nothing about which disk has which role, so it also holds when the number of
failures is more than the array can bear.

Main definitions:

* `RolesSound`, `ArraySound`, `MetaSound` — the invariant.

Main results:

* `MetaSound.fail`, `MetaSound.repair`, `MetaSound.of_access` — what the calls do to it;
* `metaSound_step` — **every call keeps the invariant**.
-/

import RaidSystem.Accesses
import RaidSystem.MetadataSteps

set_option autoImplicit false

namespace RaidSystem

open Prog

variable {cfg : Config} {s s' : Machine} {m m' : Raid} {b k d : ℕ} {buf : Block}

/-! ### Definitions -/

/-- An entry of a role table: the number of a disk, or `-1`. -/
def Entry (cfg : Config) (x : ℤ) : Prop := x = -1 ∨ 1 ≤ x ∧ x ≤ cfg.disks

/-- The role tables of a mirrored array. -/
structure RolesSound (cfg : Config) (m : Raid) : Prop where
  data : ∀ i < cfg.disks / 2, Entry cfg (m.dataDisks i)
  copy : ∀ i < cfg.disks / 2, Entry cfg (m.copyDisks i)
  reserve : m.reserveDisk = 0 ∨ Entry cfg m.reserveDisk

/-- The metadata of an array. -/
structure ArraySound (cfg : Config) (m : Raid) : Prop where
  type : ∀ v, m.type ≠ .other v
  numOfDisks : m.numOfDisks = numOfDisksOf m.type cfg.disks
  parityDisk : m.type = .RAID4 → m.parityDisk = cfg.disks - 1
  roles : m.type.plain = false → RolesSound cfg m

/-- The invariant: what the metadata say about the cache, and about the array if there is one. -/
structure MetaSound (cfg : Config) (m : Raid) : Prop where
  cached : ∀ k : ℕ, m.stripe = k → 0 ≤ m.parityCached ∧ m.parityCached < cfg.disks
  array : m.raidInitialized = true → ArraySound cfg m

theorem metaSound_zero (hn : 1 ≤ cfg.disks) : MetaSound cfg Raid.zero := by
  refine ⟨fun k _ => ⟨Int.le_refl 0, ?_⟩, nofun⟩
  exact Int.ofNat_lt.2 hn

theorem MetaSound.load (h : MetaSound cfg m) :
    MetaSound cfg { m with stripe := -1, parityCached := -1 } := by
  constructor
  · intro k hk
    have hk : (-1 : ℤ) = k := hk
    omega
  · intro hinit
    obtain ⟨htype, hnum, hparity, hroles⟩ := h.array hinit
    exact ⟨htype, hnum, hparity, fun hp =>
      ⟨(hroles hp).data, (hroles hp).copy, (hroles hp).reserve⟩⟩

/-! ### Initialisation keeps the invariant -/

theorem ofInt_ne_other {x : ℤ} (h₀ : 0 ≤ x) (h₄ : x ≤ 4) : ∀ v, RaidType.ofInt x ≠ .other v := by
  intro v
  have hx : x = 0 ∨ x = 1 ∨ x = 2 ∨ x = 3 ∨ x = 4 := by omega
  rcases hx with rfl | rfl | rfl | rfl | rfl <;> exact fun h => nomatch h

theorem rolesSound_initMirrorMeta (hn : 2 ≤ cfg.disks) (m : Raid) :
    RolesSound cfg (initMirrorMeta cfg m) := by
  refine ⟨fun i hi => ?_, fun i hi => ?_, ?_⟩
  · have hentry : (initMirrorMeta cfg m).dataDisks i = i + 1 := if_pos hi
    rw [hentry]
    exact .inr ⟨by omega, by omega⟩
  · have hentry : (initMirrorMeta cfg m).copyDisks i = i + 1 + (cfg.disks / 2 : ℕ) := if_pos hi
    rw [hentry]
    exact .inr ⟨by omega, by omega⟩
  · have hentry : (initMirrorMeta cfg m).reserveDisk =
        if cfg.disks % 2 = 0 then (-1 : ℤ) else cfg.disks := rfl
    rw [hentry]
    split
    · exact .inr (.inl rfl)
    · exact .inr (.inr ⟨by omega, by omega⟩)

theorem arraySound_initMeta (hn : 2 ≤ cfg.disks) {t : RaidType} (ht : ∀ v, t ≠ .other v)
    (m : Raid) :
    ArraySound cfg (initMeta cfg t m) := by
  refine ⟨?_, ?_, ?_, ?_⟩
  · rwa [initMeta_type]
  · rw [initMeta_type, initMeta_numOfDisks]
  · intro h
    rw [initMeta_type] at h
    subst h
    rfl
  · intro hplain
    rw [initMeta_type] at hplain
    cases t with
    | RAID1 => exact rolesSound_initMirrorMeta hn _
    | RAID0_1 => exact rolesSound_initMirrorMeta hn _
    | other v => exact absurd rfl (ht v)
    | _ => cases hplain

theorem MetaSound.init (hn : 2 ≤ cfg.disks) {t : RaidType} (ht : ∀ v, t ≠ .other v)
    (h : MetaSound cfg m) : MetaSound cfg (initMeta cfg t m) := by
  refine ⟨?_, fun _ => arraySound_initMeta hn ht m⟩
  have hcache : (initMeta cfg t m).stripe = m.stripe ∧
      (initMeta cfg t m).parityCached = m.parityCached := by
    cases t <;> exact ⟨rfl, rfl⟩
  rw [hcache.1, hcache.2]
  exact h.cached

/-! ### Changes of the roles keep the invariant -/

theorem RolesSound.setWord {w v : ℤ} (h : RolesSound cfg m) (hv : Entry cfg v)
    (hw : m.setWord cfg.disks w v = some m') : RolesSound cfg m' := by
  unfold Raid.setWord at hw
  split at hw
  · obtain rfl := Option.some_inj.1 hw
    refine ⟨fun j hj => ?_, h.copy, h.reserve⟩
    simp only [Function.update_apply]
    split
    · exact hv
    · exact h.data j hj
  · obtain rfl := Option.some_inj.1 hw
    refine ⟨h.data, fun j hj => ?_, h.reserve⟩
    simp only [Function.update_apply]
    split
    · exact hv
    · exact h.copy j hj
  · obtain rfl := Option.some_inj.1 hw
    exact ⟨h.data, h.copy, .inr hv⟩
  · obtain rfl := Option.some_inj.1 hw
    exact ⟨h.data, h.copy, h.reserve⟩
  · obtain rfl := Option.some_inj.1 hw
    exact ⟨h.data, h.copy, h.reserve⟩
  · cases hw

/-- The role tables of the metadata in memory. -/
def MemRoles (cfg : Config) (s : Machine) : Prop :=
  ∀ m, s.raidMetadata = some m → RolesSound cfg m

section Roles

variable {j v : ℤ} {u : Unit}

section

variable (hI : MemRoles cfg s)

include hI

theorem MemRoles.storeWord {w : ℤ} (hv : Entry cfg v) (h : Returns (storeWord cfg w v) s u s') :
    MemRoles cfg s' := by
  obtain ⟨m, m₁, hm, hw, rfl⟩ := returns_storeWord.1 h
  intro m' hm'
  obtain rfl := Option.some_inj.1 hm'
  exact (hI m hm).setWord hv hw

theorem MemRoles.setDataDisks (hv : Entry cfg v) (h : Returns (setDataDisks cfg j v) s u s') :
    MemRoles cfg s' :=
  hI.storeWord hv (returns_setDataDisks.1 h)

theorem MemRoles.setCopyDisks (hv : Entry cfg v) (h : Returns (setCopyDisks cfg j v) s u s') :
    MemRoles cfg s' :=
  hI.storeWord hv (returns_setCopyDisks.1 h)

theorem MemRoles.setReserveDisk (hv : v = 0 ∨ Entry cfg v)
    (h : Returns (setMetadata fun m => { m with reserveDisk := v }) s u s') : MemRoles cfg s' := by
  obtain ⟨m, hm, rfl⟩ := returns_setMetadata.1 h
  intro m' hm'
  obtain rfl := Option.some_inj.1 hm'
  exact ⟨(hI m hm).data, (hI m hm).copy, hv⟩

theorem MemRoles.entry_of_copyDisks {w : ℤ} (h₀ : 0 ≤ j) (h₁ : j < (cfg.disks / 2 : ℕ))
    (h : Returns (copyDisks cfg j) s w s') :
    s' = s ∧ Entry cfg w := by
  obtain ⟨rfl, m, hm, rfl⟩ := returns_copyDisks.1 h
  rw [Raid.word_copyDisks h₀ h₁]
  exact ⟨rfl, (hI m hm).copy _ (by omega)⟩

theorem MemRoles.failWithReserve (hnum : m.numOfDisks = cfg.disks / 2)
    (hreserve : Entry cfg m.reserveDisk) (hd : 1 ≤ d)
    (h : Returns (failWithReserve cfg d m) s u s') : MemRoles cfg s' := by
  rcases returns_ite.1 h with ⟨hle, hprimary⟩ | ⟨-, hcopy⟩
  · obtain ⟨c, s₁, h₁, hrest⟩ := returns_bind.1 hprimary
    obtain ⟨rfl, hc⟩ := hI.entry_of_copyDisks (by omega) (by omega) h₁
    obtain ⟨_, s₂, h₂, hrest⟩ := returns_bind.1 hrest
    obtain ⟨_, s₃, h₃, h₄⟩ := returns_bind.1 hrest
    exact ((hI.setDataDisks hc h₂).setCopyDisks hreserve h₃).setReserveDisk (.inl rfl) h₄
  · obtain ⟨_, s₁, h₁, h₂⟩ := returns_bind.1 hcopy
    exact (hI.setCopyDisks hreserve h₁).setReserveDisk (.inl rfl) h₂

theorem MemRoles.failWithoutReserve (hnum : m.numOfDisks = cfg.disks / 2)
    (h : Returns (failWithoutReserve cfg j m) s u s') : MemRoles cfg s' := by
  have hnone : Entry cfg (-1) := .inl rfl
  obtain ⟨primary, s₁, h₁, hrest⟩ := returns_bind.1 h
  obtain ⟨rfl, hprimary⟩ := findLast_cases dataDisks_pure h₁
  rcases returns_ite.1 hrest with ⟨hne, hfound⟩ | ⟨-, hcopy⟩
  · rcases hprimary with ⟨i, -, hi, rfl⟩ | ⟨rfl, -⟩
    · obtain ⟨c, s₂, h₂, hstores⟩ := returns_bind.1 hfound
      obtain ⟨rfl, hc⟩ := hI.entry_of_copyDisks (by omega) (by omega) h₂
      obtain ⟨_, s₃, h₃, h₄⟩ := returns_bind.1 hstores
      exact (hI.setDataDisks hc h₃).setCopyDisks hnone h₄
    · exact absurd rfl hne
  · obtain ⟨copy, s₂, h₂, h₃⟩ := returns_bind.1 hcopy
    obtain ⟨rfl, -⟩ := findLast_cases copyDisks_pure h₂
    exact hI.setCopyDisks hnone h₃

/-- A failure enters numbers of disks and `-1` only. -/
theorem MemRoles.failRoles (hm : s.raidMetadata = some m) (hplain : m.type.plain = false)
    (hnum : m.numOfDisks = cfg.disks / 2) (hd : 1 ≤ d) (h : Returns (failRoles cfg d) s u s') :
    MemRoles cfg s' := by
  rw [RaidSystem.failRoles, (metadata_returns hm).bind_iff, if_neg (by simp [hplain])] at h
  rcases returns_ite.1 h with ⟨hreserve, h⟩ | ⟨-, h⟩
  · exact hI.failWithReserve hnum ((hI m hm).reserve.resolve_left hreserve.2) hd h
  · exact hI.failWithoutReserve hnum h

/-- A repair enters the number of the disk. -/
theorem MemRoles.repairRoles (hm : s.raidMetadata = some m) (hplain : m.type.plain = false)
    (hd : Entry cfg j) (h : Returns (repairRoles cfg j) s u s') :
    MemRoles cfg s' := by
  rw [RaidSystem.repairRoles, (metadata_returns hm).bind_iff, if_neg (by simp [hplain])] at h
  obtain ⟨r, s₁, h₁, hrest⟩ := returns_bind.1 h
  obtain ⟨rfl, -⟩ := findHole_cases dataDisks_pure h₁
  cases r with
  | some i => exact hI.setDataDisks hd hrest
  | none =>
    obtain ⟨r, s₂, h₂, hrest⟩ := returns_bind.1 hrest
    obtain ⟨rfl, -⟩ := findHole_cases copyDisks_pure h₂
    cases r with
    | some i => exact hI.setCopyDisks hd hrest
    | none => exact hI.setReserveDisk (.inr hd) hrest

end

end Roles

theorem numOfDisksOf_mirror {t : RaidType} {n : ℕ} (ht : ∀ v, t ≠ .other v)
    (hplain : t.plain = false) : numOfDisksOf t n = n / 2 := by
  cases t with
  | RAID1 => rfl
  | RAID0_1 => rfl
  | other v => exact absurd rfl (ht v)
  | _ => cases hplain

section

variable (hI : MetaSound cfg m)

include hI

/-- A change of roles keeps the invariant if it leaves the types without roles alone and the role
tables sound. -/
theorem MetaSound.of_roles (hshape : m'.shape = m.shape) (hkeep : m.type.plain = true → m' = m)
    (hroles : m.raidInitialized = true → m.type.plain = false → RolesSound cfg m') :
    MetaSound cfg m' := by
  cases hplain : m.type.plain with
  | true => rwa [hkeep hplain]
  | false =>
    obtain ⟨hinit, hrest⟩ := Prod.mk.inj hshape
    obtain ⟨htype, hrest⟩ := Prod.mk.inj hrest
    obtain ⟨hnum, hrest⟩ := Prod.mk.inj hrest
    obtain ⟨hstripe, hparity⟩ := Prod.mk.inj hrest
    constructor
    · rw [hstripe, hparity]
      exact hI.cached
    · intro h
      rw [hinit] at h
      have hA := hI.array h
      refine ⟨?_, ?_, ?_, fun _ => hroles h hplain⟩
      · rw [htype]
        exact hA.type
      · rw [hnum, htype]
        exact hA.numOfDisks
      · intro hraid4
        rw [← htype, hraid4] at hplain
        cases hplain

theorem MetaSound.markDead (d : ℕ) : MetaSound cfg (markDead m d) := by
  refine ⟨hI.cached, fun h => ?_⟩
  obtain ⟨htype, hnum, hparity, hroles⟩ := hI.array h
  exact ⟨htype, hnum, hparity, fun hp => ⟨(hroles hp).data, (hroles hp).copy, (hroles hp).reserve⟩⟩

theorem MetaSound.markRepaired (d : ℕ) :
    MetaSound cfg (markRepaired m d) := by
  refine ⟨hI.cached, fun h => ?_⟩
  obtain ⟨htype, hnum, hparity, hroles⟩ := hI.array h
  exact ⟨htype, hnum, hparity, fun hp => ⟨(hroles hp).data, (hroles hp).copy, (hroles hp).reserve⟩⟩

theorem MetaSound.fail {x : ℤ} {s₁ : Machine} (ha : Addresses cfg s x m d)
    (h : Returns (failRoles cfg d) (s.withMeta (RaidSystem.markDead m d)) () s₁)
    (hm' : s₁.raidMetadata = some m') : MetaSound cfg m' := by
  refine (hI.markDead d).of_roles (shape_of_roles roleFrame_shape.failRoles h hm') ?_ ?_
  · intro hplain
    obtain ⟨-, rfl⟩ := h.unique (failRoles_plain rfl hplain)
    exact (Option.some_inj.1 hm').symm
  · intro hinit hplain
    have hA := (hI.markDead d).array hinit
    refine MemRoles.failRoles ?_ rfl hplain ?_ ha.2.2.2.1 h m' hm'
    · intro m₁ hm₁
      obtain rfl := Option.some_inj.1 hm₁
      exact hA.roles hplain
    · rw [hA.numOfDisks, numOfDisksOf_mirror hA.type hplain]

theorem MetaSound.repair {x : ℤ} {s₁ : Machine} (ha : Addresses cfg s x m d)
    (h : Returns (repairRoles cfg d) (s.withMeta (RaidSystem.markRepaired m d)) ()
      s₁)
    (hm' : s₁.raidMetadata = some m') : MetaSound cfg m' := by
  refine (hI.markRepaired d).of_roles (shape_of_roles roleFrame_shape.repairRoles h hm') ?_ ?_
  · intro hplain
    obtain ⟨-, rfl⟩ := h.unique (repairRoles_plain rfl hplain)
    exact (Option.some_inj.1 hm').symm
  · intro hinit hplain
    have hA := (hI.markRepaired d).array hinit
    obtain ⟨-, -, -, h₁, h₂⟩ := ha
    refine MemRoles.repairRoles ?_ rfl hplain (.inr ⟨by omega, by omega⟩) h m' hm'
    intro m₁ hm₁
    obtain rfl := Option.some_inj.1 hm₁
    exact hA.roles hplain

end

/-! ### The places of a stripe -/

/-- The disk and the parity disk that `read_raid4` and `write_raid4` compute. -/
theorem ArraySound.raid4 (hn : 2 ≤ cfg.disks) (hA : ArraySound cfg m) (ht : m.type = .RAID4)
    (b : ℕ) : m.numOfDisks = cfg.disks - 1 ∧ b % m.numOfDisks + 1 ≤ cfg.disks ∧
      m.parityDisk = cfg.disks - 1 := by
  have hnum : m.numOfDisks = cfg.disks - 1 := by
    rw [hA.numOfDisks, ht]
    rfl
  have hlt := Nat.mod_lt b (show 0 < cfg.disks - 1 by omega)
  rw [hnum]
  exact ⟨rfl, by omega, hA.parityDisk ht⟩

/-- The disk and the parity disk that `read_raid5` and `write_raid5` compute. -/
theorem ArraySound.raid5 (hn : 2 ≤ cfg.disks) (hA : ArraySound cfg m) (ht : m.type = .RAID5)
    (b : ℕ) : m.numOfDisks = cfg.disks ∧
      (1 ≤ (readRaid5Addr m.numOfDisks b).1 ∧ (readRaid5Addr m.numOfDisks b).1 ≤ cfg.disks) ∧
      1 ≤ (readRaid5Addr m.numOfDisks b).2.1 ∧ (readRaid5Addr m.numOfDisks b).2.1 ≤ cfg.disks := by
  have hnum : m.numOfDisks = cfg.disks := by
    rw [hA.numOfDisks, ht]
    rfl
  have hd := dataDiskOf_spec (t := .RAID5) hn b
  have hp := parityOf_mem (t := .RAID5) (show 1 ≤ cfg.disks by omega) (stripeOf cfg.disks b)
  rw [hnum, readRaid5Addr_eq]
  exact ⟨rfl, ⟨hd.1, hd.2.1⟩, hp⟩

/-! ### Accesses keep the invariant -/

section Access

variable {q : ℤ} {v : ℤ × Block}

/-- Loading a stripe records a parity disk that exists. -/
theorem MetaSound.loaded (hI : MetaSound cfg m) (hplain : m.type.plain = true) (h₀ : 0 ≤ q)
    (h₁ : q < cfg.disks) (hraid4 : m.type = .RAID4 → q = cfg.disks - 1) (k : ℕ) :
    MetaSound cfg { m with stripe := k, parityCached := q, parityDisk := q } := by
  refine ⟨fun _ _ => ⟨h₀, h₁⟩, fun h => ?_⟩
  have hA := hI.array h
  refine ⟨hA.type, hA.numOfDisks, hraid4, fun hp => ?_⟩
  have hp : m.type.plain = false := hp
  rw [hplain] at hp
  cases hp

theorem preserves_divided {body : ℕ → ℕ → Kernel (ℤ × Block)}
    (hbody : ∀ i k, Preserves Machine.raidMetadata (body i k)) :
    Preserves Machine.raidMetadata (do
      let m ← metadata
      divisor m.numOfDisks
      body (b % m.numOfDisks) (b / m.numOfDisks + 1)) :=
  preserves_metadata.bind fun _ => preserves_divisor.bind fun _ => hbody _ _

theorem state_of_refusing {body : Raid → Kernel (ℤ × Block)} (hm : s.raidMetadata = some m)
    (h : Returns (do
      let m ← metadata
      if m.maxDeadDisks ≤ m.numDeadDisks then pure (-1, buf) else body m) s v s') :
    s' = s ∨ Returns (body m) s v s' := by
  rw [(metadata_returns hm).bind_iff] at h
  rcases returns_ite.1 h with ⟨-, h⟩ | ⟨-, h⟩
  · exact .inl (returns_pure.1 h).2
  · exact .inr h

/-- What an access may make of the metadata. -/
def LoadsSound (cfg : Config) (m : Raid) (s' : Machine) : Prop :=
  s'.raidMetadata = some m ∨ ∃ k : ℕ, ∃ q : ℤ, m.type.plain = true ∧ (0 ≤ q ∧ q < cfg.disks) ∧
    (m.type = .RAID4 → q = cfg.disks - 1) ∧
    s'.raidMetadata = some { m with stripe := k, parityCached := q, parityDisk := q }

theorem LoadsSound.metaSound (h : LoadsSound cfg m s') (hI : MetaSound cfg m)
    (hm' : s'.raidMetadata = some m') : MetaSound cfg m' := by
  rcases h with hm | ⟨k, q, hplain, hq, hraid4, hm⟩
  · rwa [← Option.mem_unique hm hm']
  · rw [← Option.mem_unique hm hm']
    exact hI.loaded hplain hq.1 hq.2 hraid4 k

/-- A stripe whose parity disk the array knows may be loaded. -/
theorem loadsSound_stripe {k : ℕ} {q : ℤ} (hplain : m.type.plain = true)
    (hq : 0 ≤ q ∧ q < cfg.disks) (hraid4 : m.type = .RAID4 → q = cfg.disks - 1)
    (h : s'.raidMetadata = some m ∨
      s'.raidMetadata = some { m with stripe := k, parityCached := q, parityDisk := q }) :
    LoadsSound cfg m s' :=
  h.imp_right fun hm' => ⟨k, q, hplain, hq, hraid4, hm'⟩

section Stripe

variable (hn : 2 ≤ cfg.disks) (hA : ArraySound cfg m)

include hn hA

theorem loadsSound_accessFunction {f : Bodies} (hm : s.raidMetadata = some m)
    (hzero : Preserves Machine.raidMetadata (f.zero b buf))
    (hmirror : ∀ i k, Preserves Machine.raidMetadata (f.mirror i k buf))
    (hstripe : ∀ {d k q}, Returns (f.stripe d k q buf) s v s' → s'.raidMetadata = some m ∨
      s'.raidMetadata = some { m with stripe := k, parityCached := q, parityDisk := q })
    (h : Returns (accessFunction f m.type b buf) s v s') : LoadsSound cfg m s' := by
  cases ht : m.type with
  | RAID0 =>
    rw [ht] at h
    exact .inl ((hzero _ _ _ h).trans hm)
  | RAID1 =>
    rw [ht] at h
    exact .inl ((preserves_divided hmirror _ _ _ h).trans hm)
  | RAID0_1 =>
    rw [ht] at h
    exact .inl ((preserves_divided hmirror _ _ _ h).trans hm)
  | RAID4 =>
    rw [ht] at h
    rcases state_of_refusing hm h with rfl | hbody
    · exact .inl hm
    · have hq := hA.parityDisk ht
      exact loadsSound_stripe (by rw [ht]; rfl) (by omega) (fun _ => hq)
        (hstripe (of_divisor hbody).2)
  | RAID5 =>
    rw [ht] at h
    rcases state_of_refusing hm h with rfl | hbody
    · exact .inl hm
    · obtain ⟨-, -, hp₁, hp₂⟩ := hA.raid5 hn ht b
      have hq : (0 : ℤ) ≤ (readRaid5Addr m.numOfDisks b).2.1 - 1 ∧
          ((readRaid5Addr m.numOfDisks b).2.1 : ℤ) - 1 < cfg.disks := by omega
      exact loadsSound_stripe (by rw [ht]; rfl) hq (by simp [ht])
        (hstripe (of_divisor (of_divisor hbody).2).2)
  | other w => exact absurd ht (hA.type w)

variable (hm : s.raidMetadata = some m)

include hm

theorem loadsSound_readFunction (h : Returns (readFunction cfg m.type b buf) s v s') :
    LoadsSound cfg m s' := by
  rw [readFunction_eq] at h
  exact loadsSound_accessFunction hn hA hm preserves_readRaid0 (fun _ _ => preserves_readMirror)
    (fun h => raidMetadata_of_readStripe hm h) h

theorem loadsSound_writeFunction (h : Returns (writeFunction cfg m.type b buf) s v s') :
    LoadsSound cfg m s' := by
  rw [writeFunction_eq] at h
  exact loadsSound_accessFunction hn hA hm dataFrame_raidMetadata.writeRaid0
    (fun _ _ => dataFrame_raidMetadata.writeMirror) (fun h => raidMetadata_of_writeStripe hm h) h

end Stripe

/-- **An access keeps the invariant.** -/
theorem MetaSound.of_access {c : Call} {r : Reply} (hn : 2 ≤ cfg.disks)
    (hI : AllMeta cfg (MetaSound cfg) s) (hc : c.isAccess = true) (h : Returns (exec cfg c) s r s')
    (hm' : s'.raidMetadata = some m') : MetaSound cfg m' := by
  cases c with
  | readRaid x data =>
    obtain ⟨_, haccess, -⟩ := returns_exec_readRaid.1 h
    rcases accepted_or_rejected s x data with ⟨m, buf, b, hm, rfl, rfl, hx⟩ | hrej
    · have hA := (hI.memory m hm).array hx.1
      obtain ⟨v, hbody, -⟩ := (returns_readRaid_type hm hx hA.type).1 haccess
      exact (loadsSound_readFunction hn hA hm hbody).metaSound (hI.memory m hm) hm'
    · obtain ⟨-, rfl⟩ := (accessRaid_rejected hrej).1 haccess
      exact hI.memory m' hm'
  | writeRaid x data =>
    obtain ⟨_, haccess, -⟩ := returns_exec_writeRaid.1 h
    rcases accepted_or_rejected s x data with ⟨m, buf, b, hm, rfl, rfl, hx⟩ | hrej
    · have hA := (hI.memory m hm).array hx.1
      obtain ⟨v, hbody, -⟩ := (returns_writeRaid_type hm hx hA.type).1 haccess
      exact (loadsSound_writeFunction hn hA hm hbody).metaSound (hI.memory m hm) hm'
    · obtain ⟨-, rfl⟩ := (accessRaid_rejected hrej).1 haccess
      exact hI.memory m' hm'
  | _ => cases hc

end Access

/-- **Every call keeps the invariant** that does not initialise an array of an unknown type. -/
theorem metaSound_step {c : Call} {r : Reply} (hn : 2 ≤ cfg.disks)
    (hI : AllMeta cfg (MetaSound cfg) s) (hc : ∀ x, c = .initRaid x → 0 ≤ x ∧ x ≤ 4)
    (h : Returns (exec cfg c) s r s') : AllMeta cfg (MetaSound cfg) s' := by
  have hn₁ : 1 ≤ cfg.disks := Nat.le_of_succ_le hn
  refine hI.step hn₁ (metaStep_of_returns hn₁ h) (metaSound_zero hn₁) (fun m => MetaSound.load) ?_
    ?_ ?_ ?_
  · intro haccess m' hm'
    exact MetaSound.of_access hn hI haccess h hm'
  · rintro x m rfl - hm
    obtain ⟨h₀, h₄⟩ := hc x rfl
    exact hm.init hn (ofInt_ne_other h₀ h₄)
  · intro x m d s₁ m' _ ha _ hm hroles hm'
    exact hm.fail ha hroles hm'
  · intro x m d s₁ m' _ ha _ hm hroles hm'
    exact hm.repair ha hroles hm'

theorem Machine.Blank.metaSound (hn : 1 ≤ cfg.disks) (hs : s.Blank) :
    AllMeta cfg (MetaSound cfg) s := by
  refine ⟨fun m hm => ?_, fun e _ _ => ?_⟩
  · rw [hs.raidMetadata] at hm
    cases hm
  · rw [hs.super e]
    exact metaSound_zero hn

end RaidSystem
