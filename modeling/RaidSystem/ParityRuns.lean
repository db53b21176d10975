/-
**Runs of a parity array.**

`Keeps cfg t f h s` ties the three layers together: after the calls in `h` the machine `s` holds
contents in which every logical block has the data of its latest write.  Every call of a run keeps
it, as long as a write to a dead disk does not hit an outdated slot, and a disk is not put back
into service with outdated contents.

Main definitions:

* `Keeps` — the machine holds what the history asks for;
* `SlotCurrent` — the condition on a write: if the block lives on a dead disk and its stripe is
  cached, the slot is the sum of the other slots;
* `Rebuilt` — the condition on a repair: the disk that comes back has the contents it should have.

Main results:

* `Keeps.read`, `Keeps.write`, `Keeps.fail` — accesses to blocks on the disks, and a first failure,
  succeed;
* `Keeps.of_read`, `Keeps.of_write`, `Keeps.of_fail`, `Keeps.of_repair` — what is kept by a call
  that returns.
-/

import RaidSystem.ParityArray

set_option autoImplicit false

namespace RaidSystem

open Prog Finset

/-- The contents `L` are those that the history `h` asks for. -/
def Tracks (cfg : Config) (t : RaidType) (L : ℕ → ℕ → Sector) (h : List Call) : Prop :=
  ∀ b, cfg.OnDisk (stripeOf cfg.disks b) →
    L (dataDiskOf t cfg.disks b) (stripeOf cfg.disks b) = (latest h b).1

/-- After the history `h` the machine holds what the history asks for, with disk `f` failed. -/
def Keeps (cfg : Config) (t : RaidType) (f : Option ℕ) (h : List Call) (s : Machine) : Prop :=
  ∃ L m, Holds cfg t f L s m ∧ Tracks cfg t L h

variable {cfg : Config} {t : RaidType} {f : Option ℕ} {h : List Call} {s s' : Machine} {m : Raid}
  {r : Reply} {b d k : ℕ} {buf : Block} {data : Option Block}

/-! ### The start -/

theorem parityMeta_freshMeta (hc : ParityConfig cfg t) :
    ParityMeta cfg t none (freshMeta cfg t) := by
  have hdead : ∀ d, 1 ≤ d → d ≤ cfg.disks → ((freshMeta cfg t).Dead d ↔ none = some d) := by
    intro d _ _
    simp [not_dead_freshMeta]
  rcases hc.type with rfl | rfl
  · refine ⟨rfl, rfl, rfl, rfl, rfl, fun _ => rfl, hdead, by simp, rfl, ?_⟩
    intro k hk
    simp only [freshMeta, initMeta, initTypeMeta, initCommon] at hk
    omega
  · refine ⟨rfl, rfl, rfl, rfl, rfl, by simp, hdead, by simp, rfl, ?_⟩
    intro k hk
    simp only [freshMeta, initMeta, initTypeMeta, initCommon] at hk
    omega

theorem Keeps.start (hc : ParityConfig cfg t) (hs : Initialised cfg t s) :
    Keeps cfg t none [] s := by
  have hshape := parityMeta_freshMeta hc
  refine ⟨0, freshMeta cfg t, ⟨hs.raidMetadata, hshape, ?_, ?_, ?_, ?_⟩, ?_⟩
  · intro k _
    simp
  · intro d k _ _ hk _
    exact hs.disk d _ (by omega)
  · intro k hk _ _
    exact hs.disk _ _ (by omega)
  · intro k hk
    -- nothing is cached yet
    have hstripe : (freshMeta cfg t).stripe = -1 := by
      rcases hc.type with rfl | rfl <;> rfl
    omega
  · intro b _
    simp

/-! ### Accesses that succeed -/

theorem Keeps.read (hkeep : Keeps cfg t f h s) (hc : ParityConfig cfg t)
    (hb : cfg.OnDisk (stripeOf cfg.disks b)) (buf : Block) :
    ∃ s', Returns (exec cfg (.readRaid b (some buf))) s
        { code := 0, data := some ((latest h b).1, buf.2) } s' ∧
      Keeps cfg t f (.readRaid b (some buf) :: h) s' := by
  obtain ⟨L, m, hL, htr⟩ := hkeep
  have hn := hc.disks
  obtain ⟨h₁, h₂, hp⟩ := dataDiskOf_spec (t := t) (show 2 ≤ cfg.disks by omega) b
  obtain ⟨s', m', hr, hL'⟩ := hL.readStripe hc (stripeOf_pos _ _) hb h₁ h₂ hp buf
  rw [htr b hb] at hr
  have hread := (returns_readRaid_parity hc hL.raidMetadata hL.shape (hL.shape.accepts hc hb)).2
    ⟨_, hr, rfl⟩
  exact ⟨s', returns_exec_readRaid.2 ⟨_, hread, rfl⟩, L, m', hL', htr⟩

/-- Writing a block changes the contents of that block only. -/
theorem Tracks.store {L : ℕ → ℕ → Sector} (htr : Tracks cfg t L h) (hc : ParityConfig cfg t) (b : ℕ)
    (buf : Block) :
    Tracks cfg t (storeContents L (parityOf t cfg.disks (stripeOf cfg.disks b))
      (dataDiskOf t cfg.disks b) (stripeOf cfg.disks b) buf.1) (.writeRaid b (some buf) :: h) := by
  have hn : 2 ≤ cfg.disks := by have := hc.disks; omega
  intro b' hb'
  obtain ⟨-, -, hp⟩ := dataDiskOf_spec (t := t) hn b'
  by_cases hbb : b' = b
  · subst hbb
    rw [storeContents_stripe, updatedPage_data hp]
    simp
  · rw [latest_write, if_neg (by omega), ← htr b' hb']
    by_cases hst : stripeOf cfg.disks b' = stripeOf cfg.disks b
    · have hd : dataDiskOf t cfg.disks b' ≠ dataDiskOf t cfg.disks b :=
        fun hd => hbb (dataDiskOf_inj hn hst hd)
      rw [hst] at hp ⊢
      rw [storeContents_stripe, updatedPage_of_ne hp hd]
    · rw [storeContents_of_ne hst]

/-- The slot of a dead disk is up to date when a write hits it. -/
def SlotCurrent (cfg : Config) (t : RaidType) (s : Machine) (b : ℕ) : Prop :=
  ∀ m, s.raidMetadata = some m → m.stripe = stripeOf cfg.disks b →
    m.Dead (dataDiskOf t cfg.disks b) →
    s.page (dataDiskOf t cfg.disks b) =
      ∑ e ∈ (Icc 1 cfg.disks).erase (dataDiskOf t cfg.disks b), s.page e

instance (cfg : Config) (t : RaidType) (s : Machine) (b : ℕ) : Decidable (SlotCurrent cfg t s b) :=
  inferInstanceAs (Decidable (∀ m ∈ s.raidMetadata, _ → _ → _))

theorem Keeps.write (hkeep : Keeps cfg t f h s) (hc : ParityConfig cfg t)
    (hb : cfg.OnDisk (stripeOf cfg.disks b)) (hslot : SlotCurrent cfg t s b) (buf : Block) :
    ∃ s', Returns (exec cfg (.writeRaid b (some buf))) s { code := 0, data := some buf } s' ∧
      Keeps cfg t f (.writeRaid b (some buf) :: h) s' := by
  obtain ⟨L, m, hL, htr⟩ := hkeep
  have hn := hc.disks
  obtain ⟨h₁, h₂, hp⟩ := dataDiskOf_spec (t := t) (show 2 ≤ cfg.disks by omega) b
  have hhit : m.stripe = stripeOf cfg.disks b → f = some (dataDiskOf t cfg.disks b) →
      s.page (dataDiskOf t cfg.disks b) =
        ∑ e ∈ (Icc 1 cfg.disks).erase (dataDiskOf t cfg.disks b), s.page e :=
    fun hstripe hf => hslot m hL.raidMetadata hstripe ((hL.shape.dead_iff _ h₁ h₂).2 hf)
  obtain ⟨s', m', hr, hL'⟩ := hL.writeStripe hc (stripeOf_pos _ _) hb h₁ h₂ hp buf hhit
  have hwrite := (returns_writeRaid_parity hc hL.raidMetadata hL.shape (hL.shape.accepts hc hb)).2
    ⟨_, hr, rfl⟩
  exact ⟨s', returns_exec_writeRaid.2 ⟨_, hwrite, rfl⟩, _, m', hL', htr.store hc b buf⟩

/-! ### Accesses that return -/

/-- A stripe that could be loaded lies on the disks. -/
theorem ParityMeta.onDisk_of_cache (hs : ParityMeta cfg t f m) (hc : ParityConfig cfg t)
    (hm : s.raidMetadata = some m) {u : Unit}
    (hr : Returns (cache cfg k (parityOf t cfg.disks k - 1)) s u s') : cfg.OnDisk k := by
  have hn := hc.disks
  -- one of the first two disks is not dead
  obtain ⟨d, h₁, h₂, hd⟩ : ∃ d, 1 ≤ d ∧ d ≤ 2 ∧ ¬ m.Dead d := by
    by_cases hf : f = some 1
    · refine ⟨2, by omega, by omega, ?_⟩
      rw [hs.dead_iff 2 (by omega) (by omega), hf]
      simp
    · exact ⟨1, by omega, by omega, (hs.dead_iff 1 (by omega) (by omega)).not.2 hf⟩
  have hdp : d ≤ m.numOfDisks ∨ d = parityOf t cfg.disks k := by
    by_cases hp : d = parityOf t cfg.disks k
    · exact .inr hp
    · exact .inl (hs.numOfDisks ▸ hc.le_numOfDisks (by omega) hp)
  exact (loads_of_cache hm h₁ (by omega) hdp hd hr).1

/-- The stripe of an access that hits the cache, or loads it. -/
theorem ParityMeta.onDisk_of_access (hs : ParityMeta cfg t f m) (hc : ParityConfig cfg t)
    (hm : s.raidMetadata = some m) {α : Type} {hit rest : Kernel α} {v : α}
    (hr : Returns (if m.stripe = k then hit else do
      cache cfg k (parityOf t cfg.disks k - 1)
      rest) s v s') : cfg.OnDisk k := by
  by_cases hstripe : m.stripe = k
  · exact (hs.cached k hstripe).2.1
  · rw [if_neg hstripe, returns_bind] at hr
    obtain ⟨_, s₁, hcache, -⟩ := hr
    exact hs.onDisk_of_cache hc hm hcache

section

variable (hc : ParityConfig cfg t) (hm : s.raidMetadata = some m) (hs : ParityMeta cfg t f m)

include hc hm hs

theorem onDisk_of_readStripe {v : ℤ × Block}
    (hr : Returns (readStripe cfg d k (parityOf t cfg.disks k - 1) buf) s v s') : cfg.OnDisk k := by
  rw [readStripe, (metadata_returns hm).bind_iff] at hr
  exact hs.onDisk_of_access hc hm hr

theorem onDisk_of_writeStripe {v : ℤ × Block}
    (hr : Returns (writeStripe cfg d k (parityOf t cfg.disks k - 1) buf) s v s') :
    cfg.OnDisk k := by
  rw [writeStripe, (metadata_returns hm).bind_iff] at hr
  exact hs.onDisk_of_access hc hm hr

/-- A read that returns was rejected, or was one of a block on the disks. -/
theorem readRaid_cases {x : ℤ} (hr : Returns (exec cfg (.readRaid x data)) s r s') :
    r.code = -1 ∧ s' = s ∨
      ∃ b buf, x = (b : ℕ) ∧ data = some buf ∧ cfg.OnDisk (stripeOf cfg.disks b) := by
  obtain ⟨v, hv, rfl⟩ := returns_exec_readRaid.1 hr
  rcases accepted_or_rejected s x data with ⟨m', buf, b, hm', rfl, rfl, hx⟩ | hacc
  · obtain rfl := Option.mem_unique hm hm'
    obtain ⟨w, hw, -⟩ := (returns_readRaid_parity hc hm hs hx).1 hv
    exact .inr ⟨b, buf, rfl, rfl, onDisk_of_readStripe hc hm hs hw⟩
  · obtain ⟨rfl, rfl⟩ := (accessRaid_rejected hacc).1 hv
    exact .inl ⟨rfl, rfl⟩

/-- A write that returns was rejected, or was one of a block on the disks. -/
theorem writeRaid_cases {x : ℤ} (hr : Returns (exec cfg (.writeRaid x data)) s r s') :
    (¬ ∃ buf, data = some buf ∧ m.Accepts x) ∧ s' = s ∨
      ∃ b buf, x = (b : ℕ) ∧ data = some buf ∧ cfg.OnDisk (stripeOf cfg.disks b) := by
  obtain ⟨v, hv, rfl⟩ := returns_exec_writeRaid.1 hr
  rcases accepted_or_rejected s x data with ⟨m', buf, b, hm', rfl, rfl, hx⟩ | hacc
  · obtain rfl := Option.mem_unique hm hm'
    obtain ⟨w, hw, -⟩ := (returns_writeRaid_parity hc hm hs hx).1 hv
    exact .inr ⟨b, buf, rfl, rfl, onDisk_of_writeStripe hc hm hs hw⟩
  · obtain ⟨-, rfl⟩ := (accessRaid_rejected hacc).1 hv
    exact .inl ⟨fun ⟨buf, hbuf, hx⟩ => hacc ⟨m, buf, hm, hbuf, hx⟩, rfl⟩

end

theorem Keeps.of_read (hkeep : Keeps cfg t f h s) (hc : ParityConfig cfg t) {x : ℤ}
    (hr : Returns (exec cfg (.readRaid x data)) s r s') :
    Keeps cfg t f (.readRaid x data :: h) s' := by
  obtain ⟨L, m, hL, htr⟩ := id hkeep
  rcases readRaid_cases hc hL.raidMetadata hL.shape hr with ⟨-, rfl⟩ | ⟨b, buf, rfl, rfl, hb⟩
  · exact ⟨L, m, hL, htr⟩
  · obtain ⟨s₁, hr₁, hs₁⟩ := hkeep.read hc hb buf
    rwa [(hr.unique hr₁).2]

theorem Keeps.of_write (hkeep : Keeps cfg t f h s) (hc : ParityConfig cfg t) {x : ℤ}
    (hslot : ∀ b : ℕ, x = b → SlotCurrent cfg t s b)
    (hr : Returns (exec cfg (.writeRaid x data)) s r s') :
    Keeps cfg t f (.writeRaid x data :: h) s' := by
  obtain ⟨L, m, hL, htr⟩ := id hkeep
  rcases writeRaid_cases hc hL.raidMetadata hL.shape hr with ⟨hrej, rfl⟩ | ⟨b, buf, rfl, rfl, hb⟩
  · refine ⟨L, m, hL, fun b hb => ?_⟩
    rw [htr b hb]
    cases data with
    | none => rfl
    | some buf =>
      -- a block on the disks would have been accepted
      have hx : x ≠ b := by
        rintro rfl
        exact hrej ⟨buf, rfl, hL.shape.accepts hc hb⟩
      rw [latest_write, if_neg hx]
  · obtain ⟨s₁, hr₁, hs₁⟩ := hkeep.write hc hb (hslot b rfl) buf
    rwa [(hr.unique hr₁).2]

/-! ### Failure and repair -/

theorem ParityConfig.plain (hc : ParityConfig cfg t) : t.plain = true := by
  rcases hc.type with rfl | rfl <;> rfl

theorem ParityMeta.markDead (hs : ParityMeta cfg t none m) (h₁ : 1 ≤ d) (h₂ : d ≤ cfg.disks) :
    ParityMeta cfg t (some d) (markDead m d) := by
  refine { hs with dead_iff := ?_, failed := ?_, numDeadDisks := ?_ }
  · intro e he₁ he₂
    rw [dead_markDead h₁ he₁, hs.dead_iff e he₁ he₂]
    simp [eq_comm]
  · rintro e ⟨⟩
    exact ⟨h₁, h₂⟩
  · simp [RaidSystem.markDead, hs.numDeadDisks, uintSucc]

theorem ParityMeta.markRepaired (hs : ParityMeta cfg t (some d) m) :
    ParityMeta cfg t none (markRepaired m d) := by
  obtain ⟨h₁, -⟩ := hs.failed d rfl
  refine { hs with dead_iff := ?_, failed := by simp, numDeadDisks := ?_ }
  · intro e he₁ he₂
    rw [dead_markRepaired h₁ he₁, hs.dead_iff e he₁ he₂]
    simp [eq_comm]
  · simp [RaidSystem.markRepaired, hs.numDeadDisks, uintPred]

/-- Losing a disk does not lose contents. -/
theorem Holds.fail {L : ℕ → ℕ → Sector} {live : ℕ → Prop} (hL : Holds cfg t none L s m) (h₁ : 1 ≤ d)
    (h₂ : d ≤ cfg.disks) (hsaved : Saved cfg live (markDead m d) s s') :
    Holds cfg t (some d) L s' (markDead m d) := by
  refine ⟨hsaved.raidMetadata, hL.shape.markDead h₁ h₂, hL.sum_eq_zero, ?_, ?_, ?_⟩
  · intro e k he₁ he₂ hk _
    rw [hsaved.disk e _ (by omega)]
    exact hL.disk e k he₁ he₂ hk (by simp)
  · intro k hk hlt _
    rw [hsaved.disk _ _ (by omega)]
    exact hL.spilled k hk hlt (by simp)
  · intro k hk e he₁ he₂ _
    rw [hsaved.page]
    exact hL.slots k hk e he₁ he₂ (.inl (by simp))

theorem Keeps.fail (hkeep : Keeps cfg t none h s) (hc : ParityConfig cfg t) (h₁ : 1 ≤ d)
    (h₂ : d ≤ cfg.disks) :
    ∃ s', Returns (exec cfg (.diskFailRaid d)) s { code := 0 } s' ∧
      Keeps cfg t (some d) (.diskFailRaid d :: h) s' := by
  obtain ⟨L, m, hL, htr⟩ := hkeep
  have haddr : Addresses cfg s d m d :=
    ⟨hL.raidMetadata, hL.shape.raidInitialized, rfl, h₁, h₂⟩
  have hplain : m.type.plain = true := hL.shape.type ▸ hc.plain
  have hlive : ¬ m.Dead d := (hL.shape.dead_iff d h₁ h₂).not.2 (by simp)
  obtain ⟨s', hr⟩ := diskFailRaid_plain_returns haddr hplain hlive
  obtain ⟨-, hsaved⟩ := diskFailRaid_plain haddr hplain hlive hr
  exact ⟨s', returns_exec_diskFailRaid.2 ⟨0, hr, rfl⟩, L, _, hL.fail h₁ h₂ hsaved, htr⟩

/-- If `x` is the number of a disk, no other disk is dead. -/
def NoOtherDead (cfg : Config) (s : Machine) (x : ℤ) : Prop :=
  1 ≤ x → x ≤ cfg.disks → ∀ m ∈ s.raidMetadata, ∀ e ∈ Icc 1 cfg.disks, m.Dead e → x = e

instance (cfg : Config) (s : Machine) (x : ℤ) : Decidable (NoOtherDead cfg s x) :=
  inferInstanceAs (Decidable (_ → _ → _))

/-- With at most one disk dead at a time, a failure does nothing or takes down a healthy array. -/
theorem diskFailRaid_cases (hc : ParityConfig cfg t) (hm : s.raidMetadata = some m)
    (hs : ParityMeta cfg t f m) {x : ℤ} (hx : NoOtherDead cfg s x)
    (hr : Returns (exec cfg (.diskFailRaid x)) s r s') :
    s' = s ∨ ∃ d, f = none ∧ 1 ≤ d ∧ d ≤ cfg.disks ∧
      Saved cfg (fun e => ¬ (markDead m d).Dead e) (markDead m d) s s' := by
  rcases diskFailRaid_idle_or s x with ⟨_, hidle⟩ | ⟨m', d, haddr, hd⟩
  · exact .inl (hr.unique hidle).2
  · obtain rfl := Option.mem_unique hm haddr.1
    obtain ⟨-, -, rfl, h₁, h₂⟩ := id haddr
    obtain ⟨c, hcall, -⟩ := returns_exec_diskFailRaid.1 hr
    -- the disk is alive, hence no disk is dead
    have hf : f = none := by
      cases f with
      | none => rfl
      | some e =>
        obtain ⟨he₁, he₂⟩ := hs.failed e rfl
        have he := (hs.dead_iff e he₁ he₂).2 rfl
        have hde : d = e := Int.ofNat_inj.1
          (hx (by omega) (by omega) m hm e (mem_Icc.2 ⟨he₁, he₂⟩) he)
        exact absurd (hde ▸ he) hd
    exact .inr ⟨d, hf, h₁, h₂, (diskFailRaid_plain haddr (hs.type ▸ hc.plain) hd hcall).2⟩

theorem Keeps.of_fail (hkeep : Keeps cfg t f h s) (hc : ParityConfig cfg t) {x : ℤ}
    (hx : NoOtherDead cfg s x) (hr : Returns (exec cfg (.diskFailRaid x)) s r s') :
    ∃ f', Keeps cfg t f' (.diskFailRaid x :: h) s' := by
  obtain ⟨L, m, hL, htr⟩ := hkeep
  rcases diskFailRaid_cases hc hL.raidMetadata hL.shape hx hr with rfl | ⟨d, rfl, h₁, h₂, hsaved⟩
  · exact ⟨f, L, m, hL, htr⟩
  · exact ⟨some d, L, _, hL.fail h₁ h₂ hsaved, htr⟩

/-- A repair does nothing or brings back the disk that has failed. -/
theorem diskRepairedRaid_cases (hc : ParityConfig cfg t) (hm : s.raidMetadata = some m)
    (hs : ParityMeta cfg t f m) {x : ℤ} (hr : Returns (exec cfg (.diskRepairedRaid x)) s r s') :
    s' = s ∨ ∃ d, f = some d ∧ Addresses cfg s x m d ∧ m.Dead d ∧
      Saved cfg (fun e => ¬ (markRepaired m d).Dead e) (markRepaired m d) s s' := by
  rcases diskRepairedRaid_idle_or s x with ⟨_, hidle⟩ | ⟨m', d, haddr, hd⟩
  · exact .inl (hr.unique hidle).2
  · obtain rfl := Option.mem_unique hm haddr.1
    obtain ⟨-, -, -, h₁, h₂⟩ := id haddr
    obtain ⟨c, hcall, -⟩ := returns_exec_diskRepairedRaid.1 hr
    exact .inr ⟨d, (hs.dead_iff d h₁ h₂).1 hd, haddr, hd,
      (diskRepairedRaid_plain haddr (hs.type ▸ hc.plain) hd hcall).2⟩

/-- Disk `d` has the contents it should have when it comes back: in every stripe its block is the
sum of the blocks of the others; where it is the parity disk, the second half of its block repeats
the block of the next disk; and its slot in the cache agrees with its block. -/
structure Rebuilt (cfg : Config) (t : RaidType) (s : Machine) (d : ℕ) : Prop where
  block : ∀ k, 1 ≤ k → s.disk d (2 * k) = ∑ e ∈ (Icc 1 cfg.disks).erase d, s.disk e (2 * k)
  spilled : ∀ k, 1 ≤ k → parityOf t cfg.disks k = d → d < cfg.disks →
    s.disk d (2 * k + 1) = s.disk (d + 1) (2 * k)
  slot : ∀ m (k : ℕ), s.raidMetadata = some m → m.stripe = k → s.page d = s.disk d (2 * k)

theorem Holds.repair {L : ℕ → ℕ → Sector} {live : ℕ → Prop} (hL : Holds cfg t (some d) L s m)
    (hreb : Rebuilt cfg t s d) (hsaved : Saved cfg live (markRepaired m d) s s') :
    Holds cfg t none L s' (markRepaired m d) := by
  obtain ⟨h₁, h₂⟩ := hL.shape.failed d rfl
  have hother : ∀ e k, 1 ≤ e → e ≤ cfg.disks → 1 ≤ k → e ≠ d → s.disk e (2 * k) = L e k :=
    fun e k he₁ he₂ hk hed => hL.disk e k he₁ he₂ hk (by simpa using hed.symm)
  have hself : ∀ k, 1 ≤ k → s.disk d (2 * k) = L d k := by
    intro k hk
    rw [hreb.block k hk, Parity.eq_sum_erase_of_sum_eq_zero (hL.sum_eq_zero k hk)
      (mem_Icc.2 ⟨h₁, h₂⟩)]
    exact sum_erase_congr fun e he₁ he₂ hed => hother e k he₁ he₂ hk hed
  have hall : ∀ e k, 1 ≤ e → e ≤ cfg.disks → 1 ≤ k → s.disk e (2 * k) = L e k := by
    intro e k he₁ he₂ hk
    by_cases hed : e = d
    · exact hed ▸ hself k hk
    · exact hother e k he₁ he₂ hk hed
  refine ⟨hsaved.raidMetadata, hL.shape.markRepaired, hL.sum_eq_zero, ?_, ?_, ?_⟩
  · intro e k he₁ he₂ hk _
    rw [hsaved.disk e _ (by omega)]
    exact hall e k he₁ he₂ hk
  · intro k hk hlt _
    rw [hsaved.disk _ _ (by omega)]
    by_cases hp : parityOf t cfg.disks k = d
    · rw [hp] at hlt ⊢
      rw [hreb.spilled k hk hp hlt]
      exact hall (d + 1) k (by omega) hlt hk
    · exact hL.spilled k hk hlt (by simpa using Ne.symm hp)
  · intro k hk e he₁ he₂ _
    rw [hsaved.page]
    by_cases hed : e = d
    · subst hed
      rw [hreb.slot m k hL.raidMetadata hk]
      exact hself k (hL.shape.cached k hk).1
    · exact hL.slots k hk e he₁ he₂ (.inl (by simpa using Ne.symm hed))

theorem Keeps.of_repair (hkeep : Keeps cfg t f h s) (hc : ParityConfig cfg t) {x : ℤ}
    (hx : ∀ m d, Addresses cfg s x m d → m.Dead d → Rebuilt cfg t s d)
    (hr : Returns (exec cfg (.diskRepairedRaid x)) s r s') :
    ∃ f', Keeps cfg t f' (.diskRepairedRaid x :: h) s' := by
  obtain ⟨L, m, hL, htr⟩ := hkeep
  rcases diskRepairedRaid_cases hc hL.raidMetadata hL.shape hr with
    rfl | ⟨d, rfl, haddr, hd, hsaved⟩
  · exact ⟨f, L, m, hL, htr⟩
  · exact ⟨none, L, _, hL.repair (hx m d haddr hd) hsaved, htr⟩

end RaidSystem
