/-
**The failure count.**

`num_dead_disks` is kept beside `disk_state`: a failure adds one to it, a repair takes one away.
The accesses of `RAID4` and `RAID5` arrays look only at the count.  `init_raid` sets it to zero but
leaves the states of the disks alone, so the two agree afterwards only if no disk was dead.  If one
was, its repair takes the count below zero, that is to `2 ^ 32 - 1`, and the array refuses all
accesses from then on.

Main definitions:

* `Raid.deadCount` — the number of disks that are marked dead;
* `CountExact`, `RefusesExactly` — the count is right, and the accesses of a parity array are
  refused exactly when two disks are dead;
* `InitsHealthy` — `init_raid` finds no dead disk.

Main results:

* `failure_count_exact` — **the count is exact if every `init_raid` finds no dead disk**, and after
  an `init_raid` only then;
* `init_forgets_dead_disk` — **`init_raid` while a disk is dead makes the count wrap around**.
-/

import RaidSystem.Accesses
import RaidSystem.MetadataSteps

set_option autoImplicit false

namespace RaidSystem

open Prog

variable {cfg : Config} {s s' : Machine} {m m' : Raid} {r : Reply} {c : Call} {d b : ℕ}
  {buf : Block}

/-! ### Definitions -/

/-- The entries of `disk_state` that are `DEAD`. -/
def Raid.deadSet (cfg : Config) (m : Raid) : Finset ℕ :=
  (Finset.range cfg.disks).filter fun i => m.diskState i = .DEAD

/-- The number of disks that are marked dead. -/
def Raid.deadCount (cfg : Config) (m : Raid) : ℕ := (m.deadSet cfg).card

/-- The failure count in memory is the number of dead disks. -/
def CountExact (cfg : Config) (s : Machine) : Prop :=
  ∀ m, s.raidMetadata = some m → m.numDeadDisks = m.deadCount cfg

/-- A call returns the code `-1`. -/
def Refuses (cfg : Config) (s : Machine) (c : Call) : Prop :=
  ∃ r s', Returns (exec cfg c) s r s' ∧ r.code = -1

/-- An access of a parity array to a block that the guard accepts returns `-1` if and only if at
least two disks are dead. -/
def RefusesExactly (cfg : Config) (s : Machine) : Prop :=
  ∀ m b buf, s.raidMetadata = some m → m.type = .RAID4 ∨ m.type = .RAID5 → m.Accepts (b : ℕ) →
    (Refuses cfg s (.readRaid b (some buf)) ↔ 2 ≤ m.deadCount cfg) ∧
      (Refuses cfg s (.writeRaid b (some buf)) ↔ 2 ≤ m.deadCount cfg)

/-- After every run of allowed calls on disks that were zero-filled at first, the count is exact. -/
def CountStaysExact (cfg : Config) (ok : List Call → Machine → Call → Prop) : Prop :=
  ∀ s₀ : Machine, s₀.Blank → ∀ h s, Reach (exec cfg) ok s₀ h s →
    CountExact cfg s ∧ RefusesExactly cfg s

/-- The metadata that `init_raid` works on, which are those in memory or those that `fetch` loads,
mark no disk dead. -/
def InitsHealthy (cfg : Config) (s : Machine) : Call → Prop
  | .initRaid _ => ∀ m, (fetched cfg s).raidMetadata = some m →
      ∀ d, 1 ≤ d → d ≤ cfg.disks → ¬ m.Dead d
  | _ => True

/-! ### Counting -/

theorem mem_deadSet {i : ℕ} : i ∈ m.deadSet cfg ↔ i < cfg.disks ∧ m.diskState i = .DEAD := by
  rw [Raid.deadSet, Finset.mem_filter, Finset.mem_range]

theorem deadCount_le (cfg : Config) (m : Raid) : m.deadCount cfg ≤ cfg.disks := by
  have hle := Finset.card_filter_le (Finset.range cfg.disks) fun i => m.diskState i = .DEAD
  rwa [Finset.card_range] at hle

theorem deadCount_congr (h : m'.diskState = m.diskState) : m'.deadCount cfg = m.deadCount cfg := by
  rw [Raid.deadCount, Raid.deadSet, h]
  rfl

theorem deadCount_eq_zero_iff :
    m.deadCount cfg = 0 ↔ ∀ d, 1 ≤ d → d ≤ cfg.disks → ¬ m.Dead d := by
  rw [Raid.deadCount, Finset.card_eq_zero, Finset.eq_empty_iff_forall_notMem]
  constructor
  · intro h d h₁ h₂ hd
    exact h (d - 1) (mem_deadSet.2 ⟨by omega, hd⟩)
  · intro h i hi
    obtain ⟨hlt, hdead⟩ := mem_deadSet.1 hi
    exact h (i + 1) (by omega) (by omega) hdead

/-- A failure of a disk that is not dead adds one. -/
theorem deadCount_markDead (h₁ : 1 ≤ d) (h₂ : d ≤ cfg.disks) (hd : ¬ m.Dead d) :
    (markDead m d).deadCount cfg = m.deadCount cfg + 1 := by
  have hset : (markDead m d).deadSet cfg = insert (d - 1) (m.deadSet cfg) := by
    ext i
    rw [Finset.mem_insert, mem_deadSet, mem_deadSet]
    by_cases hi : i = d - 1
    · have hlt : d - 1 < cfg.disks := by omega
      simp [markDead, hi, hlt]
    · simp [markDead, hi]
  have hnew : d - 1 ∉ m.deadSet cfg := fun h => hd (mem_deadSet.1 h).2
  rw [Raid.deadCount, hset, Finset.card_insert_of_notMem hnew]
  rfl

/-- A repair of a dead disk takes one away. -/
theorem deadCount_markRepaired (h₁ : 1 ≤ d) (h₂ : d ≤ cfg.disks) (hd : m.Dead d) :
    (markRepaired m d).deadCount cfg + 1 = m.deadCount cfg := by
  have hset : (markRepaired m d).deadSet cfg = (m.deadSet cfg).erase (d - 1) := by
    ext i
    rw [Finset.mem_erase, mem_deadSet, mem_deadSet]
    by_cases hi : i = d - 1
    · simp [markRepaired, hi]
    · simp [markRepaired, hi]
  have hmem : d - 1 ∈ m.deadSet cfg := mem_deadSet.2 ⟨by omega, hd⟩
  rw [Raid.deadCount, hset]
  exact Finset.card_erase_add_one hmem

/-! ### The invariant -/

/-- The count is exact, and a parity array gives up at two dead disks. -/
structure CountSound (cfg : Config) (m : Raid) : Prop where
  count : m.numDeadDisks = m.deadCount cfg
  limit : m.type = .RAID4 ∨ m.type = .RAID5 → m.maxDeadDisks = 2

/-- The fields that the invariant is about. -/
def Raid.countFields (m : Raid) : RaidType × ℕ × ℕ × (ℕ → DState) :=
  (m.type, m.numDeadDisks, m.maxDeadDisks, m.diskState)

theorem CountSound.congr (hI : CountSound cfg m) (h : m'.countFields = m.countFields) :
    CountSound cfg m' := by
  obtain ⟨htype, hrest⟩ := Prod.mk.inj h
  obtain ⟨hnum, hrest⟩ := Prod.mk.inj hrest
  obtain ⟨hmax, hstate⟩ := Prod.mk.inj hrest
  constructor
  · rw [hnum, hI.count, deadCount_congr hstate]
  · rw [htype, hmax]
    exact hI.limit

theorem roleFrame_countFields :
    RoleFrame fun s : Machine => s.raidMetadata.map Raid.countFields := by
  intro s m data copy r c p hm
  exact (congrArg (Option.map Raid.countFields) hm).symm

/-- Changing the roles does not touch the count. -/
theorem CountSound.of_roles {roles : Kernel Unit} {s₁ : Machine} (hI : CountSound cfg m)
    (hroles : Preserves (fun s => s.raidMetadata.map Raid.countFields) roles)
    (h : Returns roles (s.withMeta m) () s₁) (hm' : s₁.raidMetadata = some m') :
    CountSound cfg m' := by
  have hfields : s₁.raidMetadata.map Raid.countFields = some m.countFields := hroles _ _ _ h
  rw [hm'] at hfields
  exact hI.congr (Option.some_inj.1 hfields)

theorem countSound_zero (cfg : Config) : CountSound cfg Raid.zero := by
  refine ⟨?_, fun h => ?_⟩
  · refine (deadCount_eq_zero_iff.2 fun d _ _ => ?_).symm
    simp [Raid.Dead, Raid.zero]
  · rcases h with h | h <;> cases h

theorem CountSound.markDead (hint : cfg.disks < 2 ^ 31) (hI : CountSound cfg m) (h₁ : 1 ≤ d)
    (h₂ : d ≤ cfg.disks) (hd : ¬ m.Dead d) : CountSound cfg (markDead m d) := by
  refine ⟨?_, hI.limit⟩
  have hcount := deadCount_markDead h₁ h₂ hd
  have hle := deadCount_le cfg (RaidSystem.markDead m d)
  rw [hcount, ← hI.count]
  -- an `int` many disks cannot make the counter wrap around
  exact Nat.mod_eq_of_lt (by rw [hcount, ← hI.count] at hle; omega)

theorem CountSound.markRepaired (hI : CountSound cfg m) (h₁ : 1 ≤ d) (h₂ : d ≤ cfg.disks)
    (hd : m.Dead d) : CountSound cfg (markRepaired m d) := by
  refine ⟨?_, hI.limit⟩
  have hcount := deadCount_markRepaired h₁ h₂ hd
  have hpos : m.numDeadDisks ≠ 0 := by
    rw [hI.count]
    omega
  have hpred : (RaidSystem.markRepaired m d).numDeadDisks = m.numDeadDisks - 1 := if_neg hpos
  rw [hpred, hI.count]
  omega

theorem initMeta_count_iff (cfg : Config) (t : RaidType) (m : Raid) :
    (initMeta cfg t m).numDeadDisks = (initMeta cfg t m).deadCount cfg ↔
      ∀ d, 1 ≤ d → d ≤ cfg.disks → ¬ m.Dead d := by
  rw [initMeta_numDeadDisks, deadCount_congr (initMeta_diskState cfg t m), eq_comm,
    deadCount_eq_zero_iff]

theorem countSound_initMeta (t : RaidType) (h : ∀ d, 1 ≤ d → d ≤ cfg.disks → ¬ m.Dead d) :
    CountSound cfg (initMeta cfg t m) := by
  refine ⟨(initMeta_count_iff cfg t m).2 h, ?_⟩
  rw [initMeta_type]
  rintro (rfl | rfl) <;> rfl

/-- One call of a run. -/
theorem countSound_step (hn : 1 ≤ cfg.disks) (hint : cfg.disks < 2 ^ 31)
    (hI : AllMeta cfg (CountSound cfg) s) (hc : InitsHealthy cfg s c)
    (h : Returns (exec cfg c) s r s') : AllMeta cfg (CountSound cfg) s' := by
  refine hI.step hn (metaStep_of_returns hn h) (countSound_zero cfg) (fun m hm => hm.congr rfl)
    ?_ ?_ ?_ ?_
  · intro haccess m' hm'
    obtain ⟨m, hm, hmm'⟩ := exists_of_core hm' (core_of_access haccess h).2
    exact (hI.memory m hm).congr (congrArg Raid.countFields hmm').symm
  · rintro x m rfl hm -
    exact countSound_initMeta (.ofInt x) (hc m hm)
  · intro x m d s₁ m' _ ha hd hm hroles hm'
    have hmarked := hm.markDead hint ha.2.2.2.1 ha.2.2.2.2 hd
    exact hmarked.of_roles roleFrame_countFields.failRoles hroles hm'
  · intro x m d s₁ m' _ ha hd hm hroles hm'
    have hmarked := hm.markRepaired ha.2.2.2.1 ha.2.2.2.2 hd
    exact hmarked.of_roles roleFrame_countFields.repairRoles hroles hm'

/-! ### Refused accesses -/

theorem code_of_readStripe {k : ℕ} {q : ℤ} {v : ℤ × Block}
    (h : Returns (readStripe cfg d k q buf) s v s') : v.1 = 0 := by
  have hout : ∀ s, Returns (copyOut cfg d buf) s v s' → v.1 = 0 := by
    intro s h
    obtain ⟨_, _, -, h⟩ := returns_bind.1 h
    obtain ⟨_, _, -, h⟩ := returns_bind.1 h
    rw [(returns_pure.1 h).1]
  obtain ⟨m, _, -, h⟩ := returns_bind.1 h
  rcases returns_ite.1 h with ⟨-, h⟩ | ⟨-, h⟩
  · obtain ⟨_, _, -, h⟩ := returns_bind.1 h
    exact hout _ h
  · obtain ⟨_, _, -, h⟩ := returns_bind.1 h
    obtain ⟨_, _, -, h⟩ := returns_bind.1 h
    exact hout _ h

theorem code_of_writeStripe {k : ℕ} {q : ℤ} {v : ℤ × Block}
    (h : Returns (writeStripe cfg d k q buf) s v s') : v.1 = 0 := by
  have hout : ∀ s, Returns (do raidWriteUpdateparityCache cfg d buf.1; pure ((0 : ℤ), buf)) s v s' →
      v.1 = 0 := by
    intro s h
    obtain ⟨_, _, -, h⟩ := returns_bind.1 h
    rw [(returns_pure.1 h).1]
  obtain ⟨m, _, -, h⟩ := returns_bind.1 h
  rcases returns_ite.1 h with ⟨-, h⟩ | ⟨-, h⟩
  · exact hout _ h
  · obtain ⟨_, _, -, h⟩ := returns_bind.1 h
    obtain ⟨_, _, -, h⟩ := returns_bind.1 h
    exact hout _ h

/-- The access functions of the parity types: they compare the count with its limit, and what they
do below the limit returns the code `0`. -/
theorem refuses_of_limit {body : Raid → Kernel (ℤ × Block)} (hm : s.raidMetadata = some m)
    (hbody : ∀ v s', Returns (body m) s v s' → v.1 = 0) :
    (∃ v s', Returns (do
      let m ← metadata
      if m.maxDeadDisks ≤ m.numDeadDisks then pure (-1, buf) else body m) s v s' ∧ v.1 = -1) ↔
      m.maxDeadDisks ≤ m.numDeadDisks := by
  simp only [(metadata_returns hm).bind_iff]
  constructor
  · rintro ⟨v, s', h, hcode⟩
    rcases returns_ite.1 h with ⟨hlimit, -⟩ | ⟨-, h⟩
    · exact hlimit
    · have := hbody v s' h
      omega
  · intro hlimit
    exact ⟨_, s, by rw [if_pos hlimit]; exact returns_pure.2 ⟨rfl, rfl⟩, rfl⟩

theorem refuses_iff {f : Bodies} {c : Call} (b : ℕ) (buf : Block) (hm : s.raidMetadata = some m)
    (ht : m.type = .RAID4 ∨ m.type = .RAID5)
    (hstripe : ∀ {d k q s v s'}, Returns (f.stripe d k q buf) s v s' → v.1 = 0)
    (hc : ∀ {r s'}, Returns (exec cfg c) s r s' ↔ ∃ v,
      Returns (accessFunction f m.type b buf) s v s' ∧ r = { code := v.1, data := some v.2 }) :
    Refuses cfg s c ↔ m.maxDeadDisks ≤ m.numDeadDisks := by
  have hlimit : (∃ v s', Returns (accessFunction f m.type b buf) s v s' ∧ v.1 = -1) ↔
      m.maxDeadDisks ≤ m.numDeadDisks := by
    rcases ht with ht | ht
    · rw [ht]
      exact refuses_of_limit hm fun v s' h => hstripe (of_divisor h).2
    · rw [ht]
      exact refuses_of_limit hm fun v s' h => hstripe (of_divisor (of_divisor h).2).2
  rw [← hlimit]
  constructor
  · rintro ⟨r, s', hr, hcode⟩
    obtain ⟨v, hv, rfl⟩ := hc.1 hr
    exact ⟨v, s', hv, hcode⟩
  · rintro ⟨v, s', hv, hcode⟩
    exact ⟨_, s', hc.2 ⟨v, hv, rfl⟩, hcode⟩

theorem CountSound.refusesExactly (hI : ∀ m, s.raidMetadata = some m → CountSound cfg m) :
    RefusesExactly cfg s := by
  intro m b buf hm ht hb
  have hother : ∀ v, m.type ≠ .other v := by
    rcases ht with ht | ht <;> simp [ht]
  have hlimit : m.maxDeadDisks ≤ m.numDeadDisks ↔ 2 ≤ m.deadCount cfg := by
    rw [(hI m hm).limit ht, (hI m hm).count]
  rw [← hlimit]
  constructor
  · refine refuses_iff (f := ⟨readRaid0 cfg, readMirror cfg, readStripe cfg⟩) b buf hm ht
      code_of_readStripe ?_
    simp only [returns_exec_readRaid, returns_readRaid_type hm hb hother, exists_reply_iff,
      readFunction_eq, implies_true]
  · refine refuses_iff (f := ⟨writeRaid0 cfg, writeMirror cfg, writeStripe cfg⟩) b buf hm ht
      code_of_writeStripe ?_
    simp only [returns_exec_writeRaid, returns_writeRaid_type hm hb hother, exists_reply_iff,
      writeFunction_eq, implies_true]

/-! ### Runs -/

/-- **The failure count is exact** in every run in which `init_raid` finds no dead disk; and an
`init_raid` that finds one makes it wrong. -/
theorem failure_count_exact (hn : 1 ≤ cfg.disks) (hint : cfg.disks < 2 ^ 31) :
    CountStaysExact cfg (fun _ s c => InitsHealthy cfg s c) ∧
      ∀ s x r s', Returns (exec cfg (.initRaid x)) s r s' →
        (CountExact cfg s' ↔ InitsHealthy cfg s (.initRaid x)) := by
  constructor
  · intro s₀ hs₀ h s hreach
    have hI : AllMeta cfg (CountSound cfg) s := by
      refine hreach.inv (fun _ s => AllMeta cfg (CountSound cfg) s) ⟨?_, ?_⟩ ?_
      · intro m hm
        rw [hs₀.raidMetadata] at hm
        cases hm
      · intro e _ _
        rw [hs₀.super e]
        exact countSound_zero cfg
      · intro h s c r s' hI hc hret
        exact countSound_step hn hint hI hc hret
    exact ⟨fun m hm => (hI.memory m hm).count, CountSound.refusesExactly hI.memory⟩
  · intro s x r s' hr
    obtain ⟨m, hm, hsaved⟩ := exec_initRaid_cases hn hr
    constructor
    · intro hexact m₁ hm₁
      obtain rfl := Option.mem_unique hm hm₁
      exact (initMeta_count_iff cfg _ m).1 (hexact _ hsaved.raidMetadata)
    · intro hhealthy m₁ hm₁
      obtain rfl := Option.mem_unique hsaved.raidMetadata hm₁
      exact (initMeta_count_iff cfg _ m).2 (hhealthy m hm)

/-- Two of three disks fail, one is repaired, and the third fails. -/
def threeFailures : List Call :=
  [.initRaid 3, .diskFailRaid 1, .diskFailRaid 2, .diskRepairedRaid 1, .diskFailRaid 3]

theorem failure_count_exact_three : 1 ≤ (smallConfig 3).disks ∧ (smallConfig 3).disks < 2 ^ 31 ∧
    CountStaysExact (smallConfig 3) (fun _ s c => InitsHealthy (smallConfig 3) s c) ∧
    CountExact (smallConfig 3) (Reach.after (exec (smallConfig 3)) threeFailures blankMachine) ∧
    RefusesExactly (smallConfig 3) (Reach.after (exec (smallConfig 3)) threeFailures blankMachine) ∧
    ((Reach.after (exec (smallConfig 3)) threeFailures blankMachine).raidMetadata.map
      Raid.numDeadDisks) = some 2 := by
  have hn : 1 ≤ (smallConfig 3).disks := by decide
  have hint : (smallConfig 3).disks < 2 ^ 31 := by decide
  have hstays := (failure_count_exact hn hint).1
  obtain ⟨hcount, hrefuses⟩ := hstays blankMachine blankMachine_blank threeFailures.reverse _
    (.of_allows_start ⟨⟨by rintro m ⟨⟩ d - - ⟨⟩, by decide +kernel⟩,
      ⟨trivial, by decide +kernel⟩, ⟨trivial, by decide +kernel⟩, ⟨trivial, by decide +kernel⟩,
      ⟨trivial, by decide +kernel⟩, trivial⟩)
  exact ⟨hn, hint, hstays, hcount, hrefuses, by decide +kernel⟩

/-- A failure, a second `init_raid`, and the repair. -/
def forgottenFailure : List Call :=
  [.initRaid 3, .diskFailRaid 1, .initRaid 3, .diskRepairedRaid 1]

/-- **`init_raid` forgets a dead disk**: after the run above no disk is dead, and the count is
`2 ^ 32 - 1`. -/
theorem init_forgets_dead_disk :
    ¬ CountStaysExact (smallConfig 3) fun _ _ c => c.isSystemCall = true := by
  intro hstays
  have hcounts : ∃ m ∈
      (Reach.after (exec (smallConfig 3)) forgottenFailure blankMachine).raidMetadata,
      m.numDeadDisks ≠ m.deadCount (smallConfig 3) := by decide +kernel
  obtain ⟨m, hm, hne⟩ := hcounts
  exact hne ((hstays blankMachine blankMachine_blank forgottenFailure.reverse _
    (.of_allows_start (by decide +kernel))).1 m hm)

end RaidSystem
