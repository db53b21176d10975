/-
**Arrays that cannot be told apart: the relation and the access functions.**

Two machines may hold arrays of the same type that differ in ways no later call can see: one has
disks that were repaired where the other has disks that never failed, or role tables that its type
does not use.  `Machine.Alike` relates machines that differ in such ways only, and this module shows
that the access functions respect it.  `RaidSystem/AlikeCalls.lean` goes on to the calls.

What a later call can see depends on the type:

* RAID 0 does not use the role tables, but `write_raid0` tests the word `disk_state[b / DISKS]`,
  which for large `b` is a word behind that table (`Raid.AlikeTests`);
* the mirrored types use the role tables; the entry `-1` leads to the words in front of
  `disk_state` (`Raid.AlikeRoles`);
* RAID 4 and RAID 5 use the stripe cache (`Raid.AlikeCache`), whose slots are in the page.

Main definitions and results:

* `Raid.Alike`, `Machine.Alike` — the relation, and `Machine.Alike.symm`;
* `simulates_dead`, `simulates_readBlock`, `simulates_writeback` — what all types share;
* `simulates_readRaid0`, `simulates_readColumn`, `simulates_readStripe` and their writing
  counterparts — the access functions respect the relation.
-/

import RaidSystem.Accesses
import RaidSystem.Simulation
import RaidSystem.StripeCache

set_option autoImplicit false

namespace RaidSystem

open Prog Function

variable {cfg : Config} {t : RaidType} {mem : (ℤ → ℤ) × (ℤ → ℤ)} {m m' : Raid} {s s' : Machine}

/-! ### The relation -/

/-- The type keeps a stripe cache. -/
def RaidType.cached : RaidType → Bool
  | RAID4 | RAID5 => true
  | _ => false

/-- What `write_raid0` tests beyond the table of disk states.  `mem` are the words around the two
structures. -/
structure Raid.AlikeTests (cfg : Config) (mem : (ℤ → ℤ) × (ℤ → ℤ)) (m m' : Raid) : Prop where
  numOfDisks : m.numOfDisks = cfg.disks
  maxBlocks : m.maxBlocks = capacity cfg cfg.disks
  word : ∀ b < capacity cfg cfg.disks, cfg.disks ≤ b / cfg.disks →
    (m.word cfg.disks mem.1 (Raid.diskStateBase + (b / cfg.disks : ℕ)) = 1 ↔
      m'.word cfg.disks mem.2 (Raid.diskStateBase + (b / cfg.disks : ℕ)) = 1)

/-- A value that a role table may hold: a disk, the sentinel `-1`, or the `0` of a used reserve. -/
def Config.IsEntry (cfg : Config) (x : ℤ) : Prop := -1 ≤ x ∧ x ≤ cfg.disks

/-- The role tables, which only the mirrored types use. -/
structure Raid.AlikeRoles (cfg : Config) (m m' : Raid) : Prop where
  numOfDisks : m.numOfDisks = cfg.disks / 2
  maxDeadDisks : m.maxDeadDisks = m'.maxDeadDisks
  dataDisks : ∀ i < cfg.disks / 2, m.dataDisks i = m'.dataDisks i ∧ cfg.IsEntry (m.dataDisks i)
  copyDisks : ∀ i < cfg.disks / 2, m.copyDisks i = m'.copyDisks i ∧ cfg.IsEntry (m.copyDisks i)
  reserveDisk : cfg.IsEntry m.reserveDisk

/-- The fields of the stripe cache, which only RAID 4 and RAID 5 use.  RAID 5 computes the parity
disk from the stripe. -/
structure Raid.AlikeCache (cfg : Config) (m m' : Raid) : Prop where
  maxDeadDisks : m.maxDeadDisks = m'.maxDeadDisks
  stripe : m.stripe = m'.stripe
  parityCached : m.parityCached = m'.parityCached
  parityDisk : m.type = .RAID4 →
    m.parityDisk = m'.parityDisk ∧ 0 ≤ m.parityDisk ∧ m.parityDisk < cfg.disks

/-- Metadata of arrays of type `t` that no later call can tell apart. -/
structure Raid.Alike (cfg : Config) (t : RaidType) (mem : (ℤ → ℤ) × (ℤ → ℤ)) (m m' : Raid) :
    Prop where
  raidInitialized : m.raidInitialized = true ∧ m'.raidInitialized = true
  type : m.type = t
  type' : m'.type = t
  numOfDisks : m.numOfDisks = m'.numOfDisks
  numOfDisks_le : m.numOfDisks ≤ cfg.disks
  blockSize : m.blockSize = m'.blockSize
  maxBlocks : m.maxBlocks = m'.maxBlocks
  numDeadDisks : m.numDeadDisks = m'.numDeadDisks
  reserveDisk : m.reserveDisk = m'.reserveDisk
  dead : ∀ i < cfg.disks, (m.diskState i = .DEAD ↔ m'.diskState i = .DEAD)
  tests : t = .RAID0 → Raid.AlikeTests cfg mem m m'
  roles : t.plain = false → Raid.AlikeRoles cfg m m'
  cache : t.cached = true → Raid.AlikeCache cfg m m'

/-- Machines that no later call can tell apart.  The first sector of the page and the metadata
copies on the disks are left out, since only `fetch` and `destroy_raid` would read them. -/
structure Machine.Alike (cfg : Config) (t : RaidType) (mem : (ℤ → ℤ) × (ℤ → ℤ)) (s s' : Machine) :
    Prop where
  metadata : ∃ m m', s.raidMetadata = some m ∧ s'.raidMetadata = some m' ∧
    Raid.Alike cfg t mem m m'
  around : t = .RAID0 → s.around = mem.1 ∧ s'.around = mem.2
  disk : ∀ d k, 2 ≤ k → s.disk d k = s'.disk d k
  page : t.cached = true → ∀ j, 1 ≤ j → s.page j = s'.page j

/-- A routine that does the same on machines which cannot be told apart. -/
abbrev Respects (cfg : Config) (t : RaidType) (mem : (ℤ → ℤ) × (ℤ → ℤ)) {α : Type} (x : Kernel α) :
    Prop :=
  Simulates (Machine.Alike cfg t mem) Eq x x

theorem Raid.Alike.symm (h : Raid.Alike cfg t mem m m') : Raid.Alike cfg t mem.swap m' m where
  raidInitialized := h.raidInitialized.symm
  type := h.type'
  type' := h.type
  numOfDisks := h.numOfDisks.symm
  numOfDisks_le := h.numOfDisks ▸ h.numOfDisks_le
  blockSize := h.blockSize.symm
  maxBlocks := h.maxBlocks.symm
  numDeadDisks := h.numDeadDisks.symm
  reserveDisk := h.reserveDisk.symm
  dead i hi := (h.dead i hi).symm
  tests ht :=
    { numOfDisks := h.numOfDisks ▸ (h.tests ht).numOfDisks
      maxBlocks := h.maxBlocks ▸ (h.tests ht).maxBlocks
      word := fun b hb hj => ((h.tests ht).word b hb hj).symm }
  roles ht :=
    { numOfDisks := h.numOfDisks ▸ (h.roles ht).numOfDisks
      maxDeadDisks := (h.roles ht).maxDeadDisks.symm
      dataDisks := fun i hi =>
        have he := (h.roles ht).dataDisks i hi
        ⟨he.1.symm, he.1 ▸ he.2⟩
      copyDisks := fun i hi =>
        have he := (h.roles ht).copyDisks i hi
        ⟨he.1.symm, he.1 ▸ he.2⟩
      reserveDisk := h.reserveDisk ▸ (h.roles ht).reserveDisk }
  cache ht :=
    { maxDeadDisks := (h.cache ht).maxDeadDisks.symm
      stripe := (h.cache ht).stripe.symm
      parityCached := (h.cache ht).parityCached.symm
      parityDisk := fun h4 =>
        have hq := (h.cache ht).parityDisk (h.type.trans (h.type'.symm.trans h4))
        ⟨hq.1.symm, hq.1 ▸ hq.2.1, hq.1 ▸ hq.2.2⟩ }

theorem Machine.Alike.symm (h : Machine.Alike cfg t mem s s') :
    Machine.Alike cfg t mem.swap s' s := by
  obtain ⟨m, m', hm, hm', hmm⟩ := h.metadata
  exact ⟨⟨m', m, hm', hm, hmm.symm⟩, fun ht => (h.around ht).symm,
    fun d k hk => (h.disk d k hk).symm, fun ht j hj => (h.page ht j hj).symm⟩

/-! ### The metadata -/

theorem simulates_metadata :
    Simulates (Machine.Alike cfg t mem) (Raid.Alike cfg t mem) metadata metadata := by
  intro s s' m s₁ hR hr
  obtain ⟨hm, rfl⟩ := returns_metadata.1 hr
  obtain ⟨m₁, m', hm₁, hm', hmm⟩ := hR.metadata
  obtain rfl : m₁ = m := by simpa [hm₁] using hm
  exact ⟨m', s', metadata_returns hm', hmm, hR⟩

theorem simulates_setMetadata {f g : Raid → Raid}
    (h : ∀ m m', Raid.Alike cfg t mem m m' → Raid.Alike cfg t mem (f m) (g m')) :
    Simulates (Machine.Alike cfg t mem) Eq (setMetadata f) (setMetadata g) := by
  intro s s' u s₁ hR hr
  obtain ⟨m₁, m', hm₁, hm', hmm⟩ := hR.metadata
  obtain ⟨m, hm, rfl⟩ := returns_setMetadata.1 hr
  obtain rfl : m₁ = m := by simpa [hm₁] using hm
  refine ⟨u, _, returns_setMetadata.2 ⟨m', hm', rfl⟩, rfl, ?_⟩
  exact ⟨⟨_, _, rfl, rfl, h m₁ m' hmm⟩, hR.around, hR.disk, hR.page⟩

theorem Machine.Alike.ready (h : Machine.Alike cfg t mem s s') : s.ready = true := by
  obtain ⟨m, m', hm, -, hmm⟩ := h.metadata
  simp only [Machine.ready, hm, hmm.raidInitialized.1]

theorem simulates_ready :
    Simulates (Machine.Alike cfg t mem) (fun x y => x = true ∧ y = true) ready ready := by
  intro s s' b s₁ hR hr
  obtain ⟨rfl, rfl⟩ := returns_ready.1 hr
  exact ⟨_, s', returns_ready.2 ⟨rfl, rfl⟩, ⟨hR.ready, hR.symm.ready⟩, hR⟩

theorem simulates_divisor {n : ℕ} :
    Simulates (Machine.Alike cfg t mem) (fun _ _ => n ≠ 0) (divisor n) (divisor n) := by
  refine simulates_emit.bindEq fun _ => ?_
  exact Simulates.ite (fun _ => simulates_fail) fun hn => simulates_pure hn

/-- A table is read in both machines. -/
theorem simulates_entry {α : Type} {V : α → α → Prop} {f : Raid → Machine → α} {e : Access}
    (hf : ∀ s s' m m', Machine.Alike cfg t mem s s' → Raid.Alike cfg t mem m m' →
      V (f m s) (f m' s')) :
    Simulates (Machine.Alike cfg t mem) V (do let m ← metadata; let s ← get; emit e; pure (f m s))
      (do let m ← metadata; let s ← get; emit e; pure (f m s)) := by
  intro s s' x s₁ hR hr
  obtain ⟨m₁, m', hm₁, hm', hmm⟩ := hR.metadata
  obtain ⟨rfl, m, hm, rfl⟩ := returns_entry.1 hr
  obtain rfl : m₁ = m := by simpa [hm₁] using hm
  exact ⟨_, s', returns_entry.2 ⟨rfl, m', hm', rfl⟩, hf _ _ _ _ hR hmm, hR⟩

/-- A test of a word that both machines take for the same answer, whatever is around the structures
unless the type is RAID 0. -/
theorem simulates_dead_of_word {j : ℤ}
    (h : ∀ m m' a a', Raid.Alike cfg t mem m m' → (t = .RAID0 → a = mem.1 ∧ a' = mem.2) →
      (m.word cfg.disks a (Raid.diskStateBase + j) = 1 ↔
        m'.word cfg.disks a' (Raid.diskStateBase + j) = 1)) :
    Respects cfg t mem (dead cfg j) := by
  refine simulates_entry fun s s' m m' hR hmm => ?_
  simp only [h m m' _ _ hmm hR.around]

theorem Raid.Alike.word_diskState (h : Raid.Alike cfg t mem m m') {j : ℤ} {a a' : ℤ → ℤ}
    (h₀ : 0 ≤ j) (hj : j < cfg.disks) : m.word cfg.disks a (Raid.diskStateBase + j) = 1 ↔
      m'.word cfg.disks a' (Raid.diskStateBase + j) = 1 := by
  rw [Raid.word_diskState h₀ hj, Raid.word_diskState h₀ hj, DState.code_eq_one_iff,
    DState.code_eq_one_iff]
  exact h.dead j.toNat (by omega)

/-- The test of the state of an existing disk. -/
theorem simulates_dead {j : ℤ} (h₀ : 0 ≤ j) (hj : j < cfg.disks) :
    Respects cfg t mem (dead cfg j) :=
  simulates_dead_of_word fun _ _ _ _ h _ => h.word_diskState h₀ hj

/-! ### Block transfers -/

theorem simulates_readBlock {d : ℤ} {k : ℕ} (hk : 1 ≤ k) :
    Respects cfg t mem (readBlock cfg d k) := by
  intro s s' b s₁ hR hr
  obtain ⟨hd, hk', rfl, rfl⟩ := returns_readBlock.1 hr
  refine ⟨_, s', returns_readBlock.2 ⟨hd, hk', rfl, rfl⟩, ?_, hR⟩
  rw [hR.disk _ _ (by omega), hR.disk _ _ (by omega)]

theorem simulates_writeBlock {d : ℤ} {k : ℕ} {data : Block} :
    Respects cfg t mem (writeBlock cfg d k data) := by
  intro s s' u s₁ hR hr
  obtain ⟨hd, hk, rfl⟩ := returns_writeBlock.1 hr
  refine ⟨u, _, returns_writeBlock.2 ⟨hd, hk, rfl⟩, rfl, ?_⟩
  refine ⟨hR.metadata, hR.around, ?_, hR.page⟩
  intro e j hj
  simp only [Machine.setBlock, update_apply]
  have := hR.disk e j hj
  grind

theorem simulates_writeSuper {d : ℕ} :
    Respects cfg t mem (writeSuper cfg d) := by
  intro s s' u s₁ hR hr
  obtain ⟨m, hm, hd, rfl⟩ := returns_writeSuper.1 hr
  obtain ⟨m₁, m', hm₁, hm', hmm⟩ := hR.metadata
  refine ⟨u, _, returns_writeSuper.2 ⟨m', hm', hd, rfl⟩, rfl, ?_⟩
  refine ⟨⟨m₁, m', hm₁, hm', hmm⟩, hR.around, ?_, hR.page⟩
  intro e j hj
  simp only [update_apply]
  have := hR.disk e j hj
  grind

theorem simulates_writeback :
    Respects cfg t mem (writeback cfg) := by
  refine Simulates.forRange fun i h₁ h₂ => ?_
  exact (simulates_dead (by omega) (by omega)).ifFalse simulates_writeSuper

/-! ### RAID 0 -/

theorem simulates_readRaid0 {b : ℕ} {buf : Block} :
    Respects cfg .RAID0 mem (readRaid0 cfg b buf) := by
  refine simulates_metadata.bind fun m m' h => ?_
  have hn := (h.tests rfl).numOfDisks
  simp only [← h.numOfDisks, hn, readRaid0Addr]
  refine simulates_divisor.bind fun _ _ hn₀ => ?_
  have hd := Nat.mod_lt b (Nat.pos_of_ne_zero hn₀)
  refine (simulates_dead (by omega) (by omega)).bindEq fun _ => Simulates.ite ?_ ?_
  · exact fun _ => simulates_pure rfl
  · exact fun _ => (simulates_readBlock (Nat.le_add_left _ _)).bindEq fun _ => simulates_pure rfl

/-- `write_raid0` tests a word of the table, or one of the words behind it. -/
theorem Raid.Alike.word_tested (h : Raid.Alike cfg .RAID0 mem m m') {b : ℕ}
    (hb : b < capacity cfg cfg.disks) :
    m.word cfg.disks mem.1 (Raid.diskStateBase + (b / cfg.disks : ℕ)) = 1 ↔
      m'.word cfg.disks mem.2 (Raid.diskStateBase + (b / cfg.disks : ℕ)) = 1 := by
  rcases Nat.lt_or_ge (b / cfg.disks) cfg.disks with hj | hj
  · exact h.word_diskState (Int.natCast_nonneg _) (Int.ofNat_lt.2 hj)
  · exact (h.tests rfl).word b hb hj

theorem simulates_writeRaid0 {b : ℕ} {buf : Block} (hb : b < capacity cfg cfg.disks) :
    Respects cfg .RAID0 mem (writeRaid0 cfg b buf) := by
  refine simulates_metadata.bind fun m m' h => ?_
  have hn := (h.tests rfl).numOfDisks
  simp only [← h.numOfDisks, hn, writeRaid0Addr]
  refine simulates_divisor.bind fun _ _ _ => ?_
  have hj : ((b / cfg.disks + 1 : ℕ) : ℤ) - 1 = (b / cfg.disks : ℕ) := by omega
  rw [hj]
  have htest : Respects cfg .RAID0 mem (dead cfg (b / cfg.disks : ℕ)) := by
    refine simulates_dead_of_word fun _ _ a a' h ha => ?_
    obtain ⟨rfl, rfl⟩ := ha rfl
    exact h.word_tested hb
  refine htest.bindEq fun _ => Simulates.ite ?_ ?_
  · exact fun _ => simulates_pure rfl
  · exact fun _ => simulates_writeBlock.bindEq fun _ => simulates_pure rfl

/-! ### The mirrored types -/

section Mirror

variable (ht : t.plain = false)

include ht

theorem simulates_dataDisks {j : ℤ} (h₀ : 0 ≤ j) (hj : j < (cfg.disks / 2 : ℕ)) :
    Simulates (Machine.Alike cfg t mem) (fun x y => x = y ∧ cfg.IsEntry x) (dataDisks cfg j)
      (dataDisks cfg j) := by
  refine simulates_entry fun s s' m m' _ hmm => ?_
  rw [Raid.word_dataDisks h₀ hj, Raid.word_dataDisks h₀ hj]
  exact (hmm.roles ht).dataDisks j.toNat (by omega)

theorem simulates_copyDisks {j : ℤ} (h₀ : 0 ≤ j) (hj : j < (cfg.disks / 2 : ℕ)) :
    Simulates (Machine.Alike cfg t mem) (fun x y => x = y ∧ cfg.IsEntry x) (copyDisks cfg j)
      (copyDisks cfg j) := by
  refine simulates_entry fun s s' m m' _ hmm => ?_
  rw [Raid.word_copyDisks h₀ hj, Raid.word_copyDisks h₀ hj]
  exact (hmm.roles ht).copyDisks j.toNat (by omega)

/-- The test `disk_state[x - 1] == DEAD` for an entry `x` of a role table.  The entries `-1` and
`0` lead to `num_dead_disks` and `max_dead_disks`. -/
theorem simulates_dead_entry {x : ℤ} (hx : cfg.IsEntry x) :
    Respects cfg t mem (dead cfg (x - 1)) := by
  obtain ⟨h₁, h₂⟩ := hx
  rcases lt_trichotomy x 0 with h | h | h
  · obtain rfl : x = -1 := by omega
    refine simulates_dead_of_word fun m m' _ _ hmm _ => ?_
    simp [Raid.word, Raid.locate, Raid.diskStateBase, hmm.numDeadDisks]
  · subst h
    refine simulates_dead_of_word fun m m' _ _ hmm _ => ?_
    simp [Raid.word, Raid.locate, Raid.diskStateBase, (hmm.roles ht).maxDeadDisks]
  · exact simulates_dead (by omega) (by omega)

theorem simulates_readMirror {i k : ℕ} {buf : Block} (hi : i < cfg.disks / 2) (hk : 1 ≤ k) :
    Respects cfg t mem (readMirror cfg i k buf) := by
  refine (simulates_dataDisks ht (by omega) (by omega)).bind ?_
  rintro x _ ⟨rfl, hx⟩
  refine (simulates_copyDisks ht (by omega) (by omega)).bind ?_
  rintro y _ ⟨rfl, hy⟩
  have hread : ∀ d : ℤ, Respects cfg t mem
      (do let b ← readBlock cfg d k; pure ((0 : ℤ), b)) :=
    fun d => (simulates_readBlock hk).bindEq fun _ => simulates_pure rfl
  refine (simulates_dead_entry ht hx).bindEq fun _ => Simulates.ite ?_ fun _ => hread x
  intro _
  refine (simulates_dead_entry ht hy).bindEq fun _ => Simulates.ite ?_ fun _ => hread y
  exact fun _ => simulates_pure rfl

theorem simulates_writeUnlessDead {x : ℤ} {k : ℕ} {buf : Block} (hx : cfg.IsEntry x) :
    Respects cfg t mem (writeUnlessDead cfg x k buf) := by
  refine (simulates_dead_entry ht hx).bindEq fun _ => Simulates.ite ?_ ?_
  · exact fun _ => simulates_pure rfl
  · exact fun _ => simulates_writeBlock.bindEq fun _ => simulates_pure rfl

theorem simulates_writeMirror {i k : ℕ} {buf : Block} (hi : i < cfg.disks / 2) :
    Respects cfg t mem (writeMirror cfg i k buf) := by
  refine (simulates_dataDisks ht (by omega) (by omega)).bind ?_
  rintro x _ ⟨rfl, hx⟩
  refine (simulates_copyDisks ht (by omega) (by omega)).bind ?_
  rintro y _ ⟨rfl, hy⟩
  refine (simulates_writeUnlessDead ht hx).bindEq fun _ => ?_
  exact (simulates_writeUnlessDead ht hy).bindEq fun _ => simulates_pure rfl

/-- The address computation in front of the four mirrored access functions. -/
theorem simulates_column {α : Type} (body : ℕ → Kernel α)
    (h : ∀ n, n = cfg.disks / 2 → n ≠ 0 →
      Respects cfg t mem (body n)) :
    Respects cfg t mem
      (do let m ← metadata; divisor m.numOfDisks; body m.numOfDisks) := by
  refine simulates_metadata.bind fun m m' hmm => ?_
  rw [← hmm.numOfDisks]
  exact simulates_divisor.bind fun _ _ hn => h _ (hmm.roles ht).numOfDisks hn

theorem simulates_readColumn {b : ℕ} {buf : Block} : Respects cfg t mem
    (do let m ← metadata
        divisor m.numOfDisks
        readMirror cfg (b % m.numOfDisks) (b / m.numOfDisks + 1) buf) := by
  refine simulates_column ht (fun n => readMirror cfg (b % n) (b / n + 1) buf) fun n hn hn₀ => ?_
  have hi := Nat.mod_lt b (Nat.pos_of_ne_zero hn₀)
  exact simulates_readMirror ht (by omega) (Nat.le_add_left _ _)

theorem simulates_writeColumn {b : ℕ} {buf : Block} : Respects cfg t mem
    (do let m ← metadata
        divisor m.numOfDisks
        writeMirror cfg (b % m.numOfDisks) (b / m.numOfDisks + 1) buf) := by
  refine simulates_column ht (fun n => writeMirror cfg (b % n) (b / n + 1) buf) fun n hn hn₀ => ?_
  have hi := Nat.mod_lt b (Nat.pos_of_ne_zero hn₀)
  exact simulates_writeMirror ht (by omega)

end Mirror

/-! ### The stripe cache -/

section Cache

variable (ht : t.cached = true)

include ht

omit ht in
theorem simulates_slotSector {i : ℤ} {len : ℕ} :
    Simulates (Machine.Alike cfg t mem) (fun x y => x = y ∧ 1 ≤ x ∧ 0 ≤ i ∧ i < cfg.disks)
      (slotSector cfg i len) (slotSector cfg i len) := by
  refine Simulates.ite (fun h => simulates_pure ?_) fun _ => simulates_fail
  exact ⟨rfl, by omega, h.1, h.2.1⟩

/-- A change of the page that reads and writes the slots only. -/
theorem simulates_setPage (f : (ℕ → Sector) → ℕ → Sector)
    (h : ∀ p q : ℕ → Sector, (∀ j, 1 ≤ j → p j = q j) → ∀ j, 1 ≤ j → f p j = f q j) :
    Respects cfg t mem
      (modify fun s => { s with page := f s.page } : Kernel Unit) := by
  refine simulates_modify fun s s' hR => ?_
  exact ⟨hR.metadata, fun h₀ => by simp [h₀, RaidType.cached] at ht, hR.disk,
    fun _ => h _ _ (hR.page ht)⟩

theorem simulates_loadSlot {i : ℤ} {data : Block} :
    Respects cfg t mem (loadSlot cfg i data) := by
  refine simulates_slotSector.bind ?_
  rintro j _ ⟨rfl, -⟩
  refine simulates_setPage ht
    (fun p => update (update p j data.1) (j + 1) data.2) fun p q hpq e he => ?_
  simp only [update_apply, hpq e he]

theorem simulates_storeSlot {i : ℤ} :
    Respects cfg t mem (storeSlot cfg i) := by
  refine simulates_slotSector.bind ?_
  rintro j _ ⟨rfl, hj, -⟩
  refine simulates_get.bind fun s s' hR => simulates_pure ?_
  rw [hR.page ht j hj, hR.page ht (j + 1) (by omega)]

theorem simulates_copyOut {d : ℕ} {buf : Block} :
    Respects cfg t mem (copyOut cfg d buf) := by
  refine simulates_slotSector.bind ?_
  rintro j _ ⟨rfl, hj, -⟩
  refine simulates_get.bind fun s s' hR => simulates_pure ?_
  rw [hR.page ht j hj]

theorem simulates_cacheDisk {k : ℕ} {i : ℤ} (hk : 1 ≤ k) (h₀ : 0 ≤ i) (hi : i < cfg.disks) :
    Respects cfg t mem (cacheDisk cfg k i) :=
  (simulates_dead h₀ hi).ifFalse
    ((simulates_readBlock hk).bindEq fun _ => simulates_loadSlot ht)

theorem simulates_syncDisk {k : ℕ} {i : ℤ} (h₀ : 0 ≤ i) (hi : i < cfg.disks) :
    Respects cfg t mem (syncDisk cfg k i) :=
  (simulates_dead h₀ hi).ifFalse
    ((simulates_storeSlot ht).bindEq fun _ => simulates_writeBlock)

/-- Setting the fields of the cache alike. -/
theorem Raid.Alike.setCache (h : Raid.Alike cfg t mem m m') {k k' p p' q q' : ℤ}
    (hc : Raid.AlikeCache cfg { m with stripe := k, parityCached := p, parityDisk := q }
      { m' with stripe := k', parityCached := p', parityDisk := q' }) :
    Raid.Alike cfg t mem { m with stripe := k, parityCached := p, parityDisk := q }
      { m' with stripe := k', parityCached := p', parityDisk := q' } :=
  { h with
    tests := by
      intro h₀
      simp [h₀, RaidType.cached] at ht
    roles := by
      intro hp
      cases t <;> simp [RaidType.cached, RaidType.plain] at ht hp
    cache := fun _ => hc }

/-- Loading a stripe.  For RAID 4 the parity disk is the one that the metadata name. -/
theorem simulates_cache {k : ℕ} {q : ℤ} (hk : 1 ≤ k) (h₀ : 0 ≤ q) (hq : q < cfg.disks) :
    Respects cfg t mem (cache cfg k q) := by
  refine (simulates_setMetadata fun m m' h => ?_).bindEq fun _ => ?_
  · have hc := h.cache ht
    exact h.setCache ht ⟨hc.maxDeadDisks, rfl, hc.parityCached, hc.parityDisk⟩
  refine simulates_metadata.bind fun m m' h => ?_
  rw [← h.numOfDisks]
  have hn := h.numOfDisks_le
  refine (Simulates.forRange fun i h₁ h₂ => ?_).bindEq fun _ => ?_
  · exact simulates_cacheDisk ht hk (by omega) (by omega)
  refine (simulates_setMetadata fun m m' h => ?_).bindEq fun _ => ?_
  · have hc := h.cache ht
    exact h.setCache ht ⟨hc.maxDeadDisks, hc.stripe, rfl, fun _ => ⟨rfl, h₀, hq⟩⟩
  · exact simulates_cacheDisk ht hk h₀ hq

omit ht in
theorem recoverByte_congr {d n : ℕ} {parity : Option ℕ} {c c' : ℕ → Byte} (hd : 1 ≤ d)
    (hp : ∀ p ∈ parity, 1 ≤ p) (h : ∀ j, 1 ≤ j → c j = c' j) :
    ∀ j, 1 ≤ j → recoverByte d n parity c j = recoverByte d n parity c' j := by
  have hnone : ∀ j, 1 ≤ j → recoverByte d n none c j = recoverByte d n none c' j := by
    intro j hj
    rw [recoverByte_none, recoverByte_none, update_apply, update_apply, h j hj]
    congr 1
    refine Finset.sum_congr rfl fun e he => h e ?_
    exact (Finset.mem_Icc.1 (Finset.mem_of_mem_erase he)).1
  cases parity with
  | none => exact hnone
  | some p =>
    intro j hj
    simp only [recoverByte] at hnone ⊢
    rw [update_apply, update_apply, hnone j hj, hnone d hd, hnone p (hp p rfl)]

theorem simulates_recovery {d n : ℕ} {parity : Option ℕ} (hd : 1 ≤ d) (hp : ∀ p ∈ parity, 1 ≤ p) :
    Respects cfg t mem
      (modify fun s => { s with page := forBytes (fun _ => recoverByte d n parity) s.page } :
        Kernel Unit) := by
  refine simulates_setPage ht (forBytes fun _ => recoverByte d n parity) fun p q hpq j hj => ?_
  funext i
  exact recoverByte_congr hd hp (fun l hl => congrFun (hpq l hl) i) j hj

theorem simulates_raidTocacheRecovery {d : ℕ} :
    Respects cfg t mem (raidTocacheRecovery cfg d) := by
  refine simulates_metadata.bind fun m m' h => ?_
  refine simulates_slotSector.bind ?_
  rintro x _ ⟨rfl, hx, -⟩
  rw [← h.numOfDisks, h.type, h.type']
  refine simulates_slotSector.bind ?_
  rintro y _ ⟨rfl, -⟩
  refine Simulates.ite (fun h4 => ?_) fun _ => ?_
  · rw [((h.cache ht).parityDisk (h.type.trans h4)).1]
    refine simulates_slotSector.bind ?_
    rintro z _ ⟨rfl, hz, -⟩
    exact simulates_recovery ht hx (by simpa using hz)
  · exact simulates_recovery ht hx (by simp)

theorem simulates_raidWriteUpdateparityCache {d : ℕ} {x : Sector} :
    Respects cfg t mem (raidWriteUpdateparityCache cfg d x) := by
  refine simulates_metadata.bind fun m m' h => ?_
  rw [← (h.cache ht).parityCached, ← (h.cache ht).stripe]
  refine simulates_slotSector.bind ?_
  rintro p _ ⟨rfl, hp, hp₀, hp₁⟩
  refine simulates_slotSector.bind ?_
  rintro e _ ⟨rfl, he, he₀, he₁⟩
  refine (simulates_setPage ht (forBytes fun i => updateByte p e (x i))
    fun a b hab j hj => ?_).bindEq fun _ => ?_
  · funext i
    simp only [forBytes, updateByte, update_apply, hab p hp, hab e he, hab j hj]
  · exact (simulates_syncDisk ht hp₀ hp₁).bindEq fun _ => simulates_syncDisk ht he₀ he₁

variable {d k : ℕ} {q : ℤ} {buf : Block}

theorem simulates_rebuilt (hd : d < cfg.disks + 1) (hd₁ : 1 ≤ d) :
    Respects cfg t mem
      (ifTrue (dead cfg (d - 1)) (raidTocacheRecovery cfg d)) :=
  (simulates_dead (by omega) (by omega)).ifTrue (simulates_raidTocacheRecovery ht)

theorem simulates_readStripe (hd₁ : 1 ≤ d) (hd : d < cfg.disks + 1) (hk : 1 ≤ k) (h₀ : 0 ≤ q)
    (hq : q < cfg.disks) : Respects cfg t mem (readStripe cfg d k q buf) := by
  refine simulates_metadata.bind fun m m' h => ?_
  rw [← (h.cache ht).stripe]
  refine Simulates.ite (fun _ => ?_) fun _ => ?_
  · exact (simulates_rebuilt ht hd hd₁).bindEq fun _ => simulates_copyOut ht
  · refine (simulates_cache ht hk h₀ hq).bindEq fun _ => ?_
    exact (simulates_rebuilt ht hd hd₁).bindEq fun _ => simulates_copyOut ht

theorem simulates_writeStripe (hd₁ : 1 ≤ d) (hd : d < cfg.disks + 1) (hk : 1 ≤ k) (h₀ : 0 ≤ q)
    (hq : q < cfg.disks) : Respects cfg t mem (writeStripe cfg d k q buf) := by
  refine simulates_metadata.bind fun m m' h => ?_
  rw [← (h.cache ht).stripe]
  have hupdate : Respects cfg t mem
      (do raidWriteUpdateparityCache cfg d buf.1; pure ((0 : ℤ), buf)) :=
    (simulates_raidWriteUpdateparityCache ht).bindEq fun _ => simulates_pure rfl
  refine Simulates.ite (fun _ => hupdate) fun _ => ?_
  refine (simulates_cache ht hk h₀ hq).bindEq fun _ => ?_
  exact (simulates_rebuilt ht hd hd₁).bindEq fun _ => hupdate

end Cache

section Stripe

variable {b : ℕ} {buf : Block} {α : Type}

/-- The refusal in front of the access functions of RAID 4 and RAID 5. -/
theorem simulates_refusal (ht : t.cached = true) {refused : α} {body : Raid → Kernel α}
    (h : ∀ m m', Raid.Alike cfg t mem m m' →
      Simulates (Machine.Alike cfg t mem) Eq (body m) (body m')) :
    Respects cfg t mem
      (do let m ← metadata
          if m.maxDeadDisks ≤ m.numDeadDisks then pure refused else body m) := by
  refine simulates_metadata.bind fun m m' hmm => ?_
  rw [← (hmm.cache ht).maxDeadDisks, ← hmm.numDeadDisks]
  exact Simulates.ite (fun _ => simulates_pure rfl) fun _ => h m m' hmm

/-- What a stripe has to do for both parity types. -/
def RespectsStripe (cfg : Config) (t : RaidType) (mem : (ℤ → ℤ) × (ℤ → ℤ)) (f : Bodies)
    (buf : Block) : Prop :=
  ∀ {d k} {q : ℤ}, 1 ≤ d → d < cfg.disks + 1 → 1 ≤ k → 0 ≤ q → q < cfg.disks →
    Respects cfg t mem (f.stripe d k q buf)

theorem simulates_raid4 {f : Bodies} (hf : RespectsStripe cfg .RAID4 mem f buf) :
    Respects cfg .RAID4 mem (accessFunction f .RAID4 b buf) := by
  refine simulates_refusal rfl fun m m' h => ?_
  obtain ⟨hq, hq₀, hq₁⟩ := (h.cache rfl).parityDisk h.type
  simp only [← h.numOfDisks, ← hq]
  refine simulates_divisor.bind fun _ _ hn => ?_
  have hd := Nat.mod_lt b (Nat.pos_of_ne_zero hn)
  have hle := h.numOfDisks_le
  refine hf ?_ ?_ (Nat.le_add_left _ _) hq₀ hq₁ <;> omega

/-- The parity disk and the data disk that RAID 5 computes. -/
theorem rotated_lt {n : ℕ} (hn : n ≠ 0) (x r : ℕ) : x % n < n ∧ (n - x % n + r) % n < n :=
  ⟨Nat.mod_lt _ (Nat.pos_of_ne_zero hn), Nat.mod_lt _ (Nat.pos_of_ne_zero hn)⟩

theorem simulates_raid5 {f : Bodies} (hf : RespectsStripe cfg .RAID5 mem f buf) :
    Respects cfg .RAID5 mem (accessFunction f .RAID5 b buf) := by
  refine simulates_refusal rfl fun m m' h => ?_
  simp only [← h.numOfDisks, readRaid5Addr]
  refine simulates_divisor.bind fun _ _ _ => simulates_divisor.bind fun _ _ hn => ?_
  have hd := rotated_lt hn (b / (m.numOfDisks - 1) + 1 - 1) (b % (m.numOfDisks - 1))
  have hle := h.numOfDisks_le
  refine hf ?_ ?_ (Nat.le_add_left _ _) ?_ ?_ <;> omega

end Stripe

end RaidSystem
