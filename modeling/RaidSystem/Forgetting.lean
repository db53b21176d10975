/-
**Does `init_raid` forget the past?**

`init_raid` writes the fields that describe the new array and leaves the others as it finds them:
the states of the disks, the stripe cache with its slots, and, for the types that do not use them,
the role tables.  So a new array may behave differently from one made right after a boot with blank
metadata blocks, although the data blocks are the same.

Main definitions:

* `BootedAlike` — a machine that has just booted, with blank metadata blocks and given data blocks;
* `Indistinguishable` — the same later calls get the same replies and leave the same data;
* `InitForgets` — a new array cannot be told from one made after such a boot;
* `StartsClean` — nothing that `init_raid` leaves alone is there to be seen.

Main results:

* `init_forgets` — from a clean start the past is forgotten;
* `init_keeps_dead_disk` — in general it is not: the states of the disks survive.
-/

import RaidSystem.AlikeCalls
import RaidSystem.MetadataSteps

set_option autoImplicit false

namespace RaidSystem

open Prog

variable {cfg : Config} {t : RaidType} {m : Raid} {s b : Machine}

/-! ### Two runs -/

/-- The machine `b` has just booted; its metadata blocks are blank, and its other blocks are those
of `s`. -/
structure BootedAlike (s b : Machine) : Prop where
  raidMetadata : b.raidMetadata = none
  super : ∀ d, b.super d = Raid.zero
  superTail : ∀ d, b.disk d 1 = 0
  disk : ∀ d k, 2 ≤ k → b.disk d k = s.disk d k
  kmem : b.kmem = s.kmem

/-- Whatever replies a sequence of calls gets from `s`, it gets from `s'`, and it leaves the same
first `512` bytes in every block but the metadata blocks. -/
def Follows (cfg : Config) (s s' : Machine) : Prop :=
  ∀ l s₁, LogReach (exec cfg) (fun _ c => c.isUse = true) s l s₁ →
    ∃ s₁', LogReach (exec cfg) (fun _ c => c.isUse = true) s' l s₁' ∧
      ∀ d k, 1 ≤ k → s₁'.disk d (2 * k) = s₁.disk d (2 * k)

/-- No sequence of calls tells the machines apart. -/
def Indistinguishable (cfg : Config) (s s' : Machine) : Prop := Follows cfg s s' ∧ Follows cfg s' s

/-- A new array cannot be told from one made right after a boot. -/
def InitForgets (cfg : Config) (t : RaidType) (s : Machine) : Prop :=
  ∀ b, BootedAlike s b → ∃ s₁ b₁,
    Returns (exec cfg (.initRaid t.code)) s { code := 0 } s₁ ∧
    Returns (exec cfg (.initRaid t.code)) b { code := 0 } b₁ ∧ Indistinguishable cfg s₁ b₁

theorem Machine.Alike.follows {mem : (ℤ → ℤ) × (ℤ → ℤ)} {s' : Machine} (ht : ∀ v, t ≠ .other v)
    (h : Machine.Alike cfg t mem s s') : Follows cfg s s' := by
  intro l s₁ hl
  obtain ⟨s₁', hl', hR⟩ := LogReach.simulation (fun c hc => simulates_exec ht hc) h hl
  exact ⟨s₁', hl', fun d k hk => (hR.disk d (2 * k) (by omega)).symm⟩

theorem Machine.Alike.indistinguishable {mem : (ℤ → ℤ) × (ℤ → ℤ)} {s' : Machine}
    (ht : ∀ v, t ≠ .other v) (h : Machine.Alike cfg t mem s s') : Indistinguishable cfg s s' :=
  ⟨h.follows ht, h.symm.follows ht⟩

/-! ### A clean start -/

/-- Nothing that `init_raid` leaves alone is there to be seen: no disk is dead; for RAID 0 the words
behind the table of disk states, which `write_raid0` tests, in the structure and in the cache slots
behind it, answer as with fresh metadata and blank slots; for RAID 4 and RAID 5 the stripe cache is
invalid and its slots are blank. -/
structure StartsClean (cfg : Config) (t : RaidType) (s : Machine) : Prop where
  alive : ∀ m, (fetched cfg s).raidMetadata = some m → ∀ d, 1 ≤ d → d ≤ cfg.disks → ¬ m.Dead d
  tests : t = .RAID0 → ∀ m, (fetched cfg s).raidMetadata = some m →
    ∀ b < capacity cfg cfg.disks, cfg.disks ≤ b / cfg.disks →
      (deadAt cfg (fetched cfg s) (initMeta cfg t m) (b / cfg.disks : ℕ) ↔
        deadAt cfg { fetched cfg s with page := 0 } (freshMeta cfg t) (b / cfg.disks : ℕ))
  cache : t.cached = true → ∀ m, (fetched cfg s).raidMetadata = some m →
    m.stripe = -1 ∧ m.parityCached = -1
  page : t.cached = true → ∀ j, 1 ≤ j → (fetched cfg s).page j = 0

theorem alikeRoles_initMeta (ht : t.plain = false) (hother : ∀ v, t ≠ .other v) :
    Raid.AlikeRoles cfg (initMeta cfg t m) (freshMeta cfg t) := by
  have hdata : ∀ m, ∀ i < cfg.disks / 2, (initMeta cfg t m).dataDisks i = i + 1 := by
    intro m i hi
    cases t <;> simp_all [initMeta, initTypeMeta, initMirrorMeta, RaidType.plain]
  have hcopy : ∀ m, ∀ i < cfg.disks / 2,
      (initMeta cfg t m).copyDisks i = i + 1 + (cfg.disks / 2 : ℕ) := by
    intro m i hi
    cases t <;> simp_all [initMeta, initTypeMeta, initMirrorMeta, RaidType.plain]
  have hreserve : (initMeta cfg t m).reserveDisk =
      if cfg.disks % 2 = 0 then (-1 : ℤ) else cfg.disks := by
    cases t <;> simp_all [initMeta, initTypeMeta, initMirrorMeta, initMirrorFields, RaidType.plain]
  refine ⟨?_, ?_, fun i hi => ?_, fun i hi => ?_, ?_⟩
  · cases t <;> simp_all [initMeta, initTypeMeta, initMirrorMeta, initMirrorFields, RaidType.plain]
  · cases t <;> simp_all [freshMeta, initMeta, initTypeMeta, initMirrorMeta, initMirrorFields,
      RaidType.plain]
  · rw [freshMeta, hdata _ i hi, hdata _ i hi, Config.IsEntry]
    omega
  · rw [freshMeta, hcopy _ i hi, hcopy _ i hi, Config.IsEntry]
    omega
  · rw [hreserve, Config.IsEntry]
    split <;> omega

theorem alikeCache_initMeta (hn : 1 ≤ cfg.disks) (ht : t.cached = true) (hstripe : m.stripe = -1)
    (hparity : m.parityCached = -1) : Raid.AlikeCache cfg (initMeta cfg t m) (freshMeta cfg t) := by
  cases t with
  | RAID4 =>
    refine ⟨rfl, hstripe, hparity, fun _ => ⟨rfl, ?_⟩⟩
    have hdisk : (initMeta cfg .RAID4 m).parityDisk = cfg.disks - 1 := rfl
    omega
  | RAID5 => exact ⟨rfl, hstripe, hparity, nofun⟩
  | _ => cases ht

/-- What `init_raid` makes of clean metadata is like what it makes of blank ones. -/
theorem StartsClean.alike (hn : 1 ≤ cfg.disks) (ht : ∀ v, t ≠ .other v) (hs : StartsClean cfg t s)
    (hm : (fetched cfg s).raidMetadata = some m) :
    Raid.Alike cfg t ((fetched cfg s).around, Machine.around { fetched cfg s with page := 0 })
      (initMeta cfg t m) (freshMeta cfg t) where
  raidInitialized := ⟨initMeta_raidInitialized cfg t m, initMeta_raidInitialized cfg t _⟩
  type := initMeta_type cfg t m
  type' := initMeta_type cfg t _
  numOfDisks := by
    rw [freshMeta, initMeta_numOfDisks, initMeta_numOfDisks]
  numOfDisks_le := by
    rw [initMeta_numOfDisks]
    cases t <;> simp only [numOfDisksOf] <;> omega
  blockSize := by cases t <;> rfl
  maxBlocks := by cases t <;> rfl
  numDeadDisks := by cases t <;> rfl
  reserveDisk := by cases t <;> rfl
  dead := by
    intro i hi
    have hfresh := not_dead_freshMeta cfg t (i + 1)
    have halive := hs.alive m hm (i + 1) (by omega) (by omega)
    rw [Raid.Dead, Nat.add_sub_cancel] at hfresh halive
    rw [initMeta_diskState]
    exact iff_of_false halive hfresh
  tests := by
    rintro rfl
    exact ⟨rfl, rfl, hs.tests rfl m hm⟩
  roles := fun hp => alikeRoles_initMeta hp ht
  cache := fun hc => alikeCache_initMeta hn hc (hs.cache hc m hm).1 (hs.cache hc m hm).2

/-- The machine that `fetch` leaves after a boot with blank metadata blocks. -/
theorem BootedAlike.fetched (cfg : Config) (hb : BootedAlike s b) :
    (RaidSystem.fetched cfg b).raidMetadata =
        some { Raid.zero with stripe := -1, parityCached := -1 } ∧
      (RaidSystem.fetched cfg b).page = 0 := by
  have hready : b.ready = false := by simp [Machine.ready, hb.raidMetadata]
  constructor
  · simp [RaidSystem.fetched, hready, hb.super]
  · funext j
    simp only [RaidSystem.fetched, hready, Bool.false_eq_true, if_false, hb.superTail,
      Function.update_apply]
    split
    · rfl
    · rfl

/-- **From a clean start the past is forgotten.** -/
theorem init_forgets (hn : 1 ≤ cfg.disks) (ht : ∀ v, t ≠ .other v) (hs : StartsClean cfg t s) :
    InitForgets cfg t s := by
  intro b hb
  obtain ⟨m, hm, -⟩ := fetched_raidMetadata hn s
  obtain ⟨hmb, hpage⟩ := hb.fetched cfg
  obtain ⟨s₁, hinit, hsaved⟩ := initRaid_returns hn t hm
  obtain ⟨b₁, hinitb, hsavedb⟩ := initRaid_returns hn t hmb
  have halike : Machine.Alike cfg t
      ((fetched cfg s).around, Machine.around { fetched cfg s with page := 0 }) s₁ b₁ := by
    refine ⟨⟨_, _, hsaved.raidMetadata, hsavedb.raidMetadata, hs.alike hn ht hm⟩, ?_, ?_, ?_⟩
    · intro _
      constructor
      · funext w
        simp only [Machine.around, hsaved.page, hsaved.kmem]
      · funext w
        simp only [Machine.around, hsavedb.page, hsavedb.kmem, hpage, fetched_kmem, hb.kmem]
    · intro d k hk
      rw [hsaved.disk d k hk, hsavedb.disk d k hk, fetched_disk, fetched_disk, hb.disk d k hk]
    · intro hc j hj
      rw [hsaved.page, hsavedb.page, hs.page hc j hj, hpage]
      rfl
  refine ⟨s₁, b₁, ?_, ?_, halike.indistinguishable ht⟩
  · rw [← ofInt_code ht] at hinit
    exact returns_exec_initRaid.2 ⟨0, hinit, rfl⟩
  · rw [← ofInt_code ht] at hinitb
    exact returns_exec_initRaid.2 ⟨0, hinitb, rfl⟩

/-- A RAID 0 array of three disks after a write. -/
def stripedArray : Machine :=
  (exec (smallConfig 3) (.writeRaid 4 (some (bytes 7)))
    (exec (smallConfig 3) (.initRaid 0) blankMachine).state).state

theorem startsClean_stripedArray (t : RaidType) : StartsClean (smallConfig 3) t stripedArray := by
  have hcompute : (fetched (smallConfig 3) stripedArray).raidMetadata.map (fun m =>
      decide ((∀ d < 4, ¬ m.Dead d) ∧ m.stripe = -1 ∧ m.parityCached = -1 ∧ ∀ b < 45, 3 ≤ b / 3 →
        (deadAt (smallConfig 3) (fetched (smallConfig 3) stripedArray)
          (initMeta (smallConfig 3) .RAID0 m) (b / 3 : ℕ) ↔
        deadAt (smallConfig 3) { fetched (smallConfig 3) stripedArray with page := 0 }
          (freshMeta (smallConfig 3) .RAID0) (b / 3 : ℕ)))) = some true := by
    decide +kernel
  obtain ⟨m, hm, hval⟩ := Option.map_eq_some_iff.1 hcompute
  obtain ⟨halive, hstripe, hparity, htests⟩ := of_decide_eq_true hval
  have hpage : (fetched (smallConfig 3) stripedArray).page = 0 :=
    (BootedAlike.fetched (s := blankMachine) (smallConfig 3)
      ⟨rfl, fun _ => rfl, fun _ => rfl, fun _ _ _ => rfl, rfl⟩).2
  refine ⟨fun m' hm' d _ h₂ => ?_, ?_, fun _ m' hm' => ?_, fun _ j _ => by rw [hpage]; rfl⟩
  · obtain rfl := Option.mem_unique hm hm'
    exact halive d (Nat.lt_succ_of_le h₂)
  · rintro rfl m' hm' b hb hj
    obtain rfl := Option.mem_unique hm hm'
    exact htests b hb hj
  · obtain rfl := Option.mem_unique hm hm'
    exact ⟨hstripe, hparity⟩

/-- From there any array may be made. -/
theorem init_forgets_three :
    Reach (exec (smallConfig 3)) (fun _ _ c => c.isSystemCall = true) blankMachine
      [.writeRaid 4 (some (bytes 7)), .initRaid 0] stripedArray ∧ 1 ≤ (smallConfig 3).disks ∧
      InitForgets (smallConfig 3) .RAID0 stripedArray ∧
        InitForgets (smallConfig 3) .RAID1 stripedArray ∧
      InitForgets (smallConfig 3) .RAID4 stripedArray ∧
      InitForgets (smallConfig 3) .RAID5 stripedArray := by
  have hn : 1 ≤ (smallConfig 3).disks := by decide
  have hrun : Reach (exec (smallConfig 3)) (fun _ _ c => c.isSystemCall = true) blankMachine
      [.initRaid 0, .writeRaid 4 (some (bytes 7))].reverse stripedArray :=
    .of_allows_start (by decide +kernel)
  exact ⟨hrun, hn, init_forgets hn nofun (startsClean_stripedArray _),
    init_forgets hn nofun (startsClean_stripedArray _),
    init_forgets hn nofun (startsClean_stripedArray _),
    init_forgets hn nofun (startsClean_stripedArray _)⟩

/-- A boot of `s` with blank metadata blocks. -/
def bootBlank (s : Machine) : Machine :=
  { s with
    raidMetadata := none
    super := fun _ => Raid.zero
    disk := fun d k => if k = 1 then 0 else s.disk d k }

theorem bootedAlike_bootBlank (s : Machine) : BootedAlike s (bootBlank s) := by
  refine ⟨rfl, fun _ => rfl, fun _ => rfl, fun d k hk => ?_, rfl⟩
  exact if_neg (by omega)

/-- The machine after the failure of disk `1` in a new RAID 0 array of two disks. -/
def failedArray : Machine :=
  (exec (smallConfig 2) (.diskFailRaid 1)
    (exec (smallConfig 2) (.initRaid 0) blankMachine).state).state

/-- **The states of the disks survive**: a disk that failed in an earlier array is dead in the new
one, so that a read fails which succeeds right after a boot. -/
theorem init_keeps_dead_disk : ¬ ∀ (h : List Call) (s : Machine),
    Reach (exec (smallConfig 2)) (fun _ _ c => c.isSystemCall = true) blankMachine h s →
      InitForgets (smallConfig 2) .RAID0 s := by
  intro hall
  have hrun : Reach (exec (smallConfig 2)) (fun _ _ c => c.isSystemCall = true) blankMachine
      [.initRaid 0, .diskFailRaid 1].reverse failedArray := .of_allows_start (by decide +kernel)
  obtain ⟨s₁, b₁, hs₁, hb₁, hfollows, -⟩ :=
    hall _ failedArray hrun _ (bootedAlike_bootBlank failedArray)
  -- the read of block `0` in both runs
  have hread : (replyOf (exec (smallConfig 2) (.readRaid 0 (some (bytes 0))) s₁)).map Reply.code =
      some (-1) := by
    rw [← hs₁.2]
    decide +kernel
  have hreadb : (replyOf (exec (smallConfig 2) (.readRaid 0 (some (bytes 0))) b₁)).map Reply.code =
      some 0 := by
    rw [← hb₁.2]
    decide +kernel
  obtain ⟨r, hr, hcode⟩ := Option.map_eq_some_iff.1 hread
  obtain ⟨_, hl, -⟩ := hfollows _ _ (LogReach.start.next rfl (returns_of_replyOf hr))
  cases hl with
  | next hl _ hret =>
    cases hl
    rw [replyOf_of_returns hret, Option.map_some, hcode] at hreadb
    exact absurd hreadb (by decide)

end RaidSystem
