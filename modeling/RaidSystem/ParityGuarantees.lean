/-
**What a parity array guarantees.**

The theorems about whole runs of `RAID4` and `RAID5` arrays, from `init_raid` on zero-filled disks.

A healthy array keeps parity and cache exact (`parity_exact`), so that any one disk can be lost and
every block still be read.  An array that has lost a disk goes on serving reads and writes as long
as no write hits an outdated slot (`serves_degraded`).  The source does not see to that: on a hit,
`write_raid4` and `write_raid5` skip the call of `raid_tocache_recovery` that they make on a miss,
and the slot of a dead disk may then hold what an earlier stripe, or the spill of a neighbour, has
left there (`degraded_write_loses_data`).

Putting a disk back into service restores redundancy only if the disk has been rebuilt by other
means (`redundancy_after_repair`): `disk_repaired_raid` changes the state of the disk and nothing
else (`repair_leaves_parity_broken`).
-/

import RaidSystem.ParityRuns

set_option autoImplicit false

namespace RaidSystem

open Prog Finset

variable {cfg : Config} {t : RaidType} {f : Option ℕ} {h : List Call} {s s' : Machine}
  {r : Reply}

/-! ### One failure -/

/-- The array is created on zero-filled disks, and then every call allowed by `ok` in a run of
allowed calls returns, with the right answer. -/
def Serves (cfg : Config) (t : RaidType) (ok : List Call → Machine → Call → Prop) : Prop :=
  ∀ s₀ : Machine, s₀.Blank → ∃ s₁, Returns (exec cfg (.initRaid t.code)) s₀ { code := 0 } s₁ ∧
    ∀ h s c, Reach (exec cfg) ok s₁ h s → ok h s c →
      ∃ r s', Returns (exec cfg c) s r s' ∧ Answers h c r

/-- The logical block `x` has its stripe on the disks. -/
def OnArray (cfg : Config) (x : ℤ) : Prop := 0 ≤ x ∧ cfg.OnDisk (stripeOf cfg.disks x.toNat)

instance (cfg : Config) (x : ℤ) : Decidable (OnArray cfg x) := inferInstanceAs (Decidable (_ ∧ _))

/-- The calls of a run with one failure: accesses to blocks on the disks, with a buffer, and the
failure of one disk. -/
def OneFailure (cfg : Config) (h : List Call) : Call → Prop
  | .readRaid x data => OnArray cfg x ∧ data.isSome
  | .writeRaid x data => OnArray cfg x ∧ data.isSome
  | .diskFailRaid x => 1 ≤ x ∧ x ≤ cfg.disks ∧ ∀ c ∈ h, c.isFailure = false
  | _ => False

instance (cfg : Config) (h : List Call) : ∀ c, Decidable (OneFailure cfg h c)
  | .readRaid _ _ => inferInstanceAs (Decidable (_ ∧ _))
  | .writeRaid _ _ => inferInstanceAs (Decidable (_ ∧ _))
  | .diskFailRaid _ => inferInstanceAs (Decidable (_ ∧ _ ∧ _))
  | .initRaid _ | .infoRaid | .diskRepairedRaid _ | .destroyRaid | .reboot | .elsewhere _ =>
    inferInstanceAs (Decidable False)

/-- A write to a block on a dead disk finds the slot up to date if it hits the cache. -/
def WriteFindsSlot (cfg : Config) (t : RaidType) (s : Machine) : Call → Prop
  | .writeRaid x _ => SlotCurrent cfg t s x.toNat
  | _ => True

/-- What holds along a run with one failure. -/
def ServesInv (cfg : Config) (t : RaidType) (h : List Call) (s : Machine) : Prop :=
  ∃ f, Keeps cfg t f h s ∧ (f ≠ none → ∃ c ∈ h, c.isFailure = true)

theorem init_keeps (hc : ParityConfig cfg t) {s₀ : Machine} (hs₀ : s₀.Blank) :
    ∃ s₁, Returns (exec cfg (.initRaid t.code)) s₀ { code := 0 } s₁ ∧ Keeps cfg t none [] s₁ := by
  have ht : ∀ v, t ≠ .other v := by
    rintro v rfl
    rcases hc.type with h | h <;> cases h
  have hn := hc.disks
  obtain ⟨s₁, hr, hs₁⟩ := exec_initRaid_blank (show 1 ≤ cfg.disks by omega) ht hs₀
  exact ⟨s₁, hr, Keeps.start hc hs₁⟩

/-- One call of a run with one failure. -/
theorem ServesInv.step (hc : ParityConfig cfg t) (hI : ServesInv cfg t h s) {c : Call}
    (hok : OneFailure cfg h c) (hw : WriteFindsSlot cfg t s c) :
    ∃ r s', Returns (exec cfg c) s r s' ∧ Answers h c r ∧ ServesInv cfg t (c :: h) s' := by
  obtain ⟨f, hkeep, hf⟩ := hI
  have hf' : f ≠ none → ∃ c' ∈ c :: h, c'.isFailure = true := fun hne =>
    (hf hne).imp fun c' hc' => ⟨List.mem_cons_of_mem _ hc'.1, hc'.2⟩
  cases c with
  | readRaid x data =>
    obtain ⟨⟨hx, hon⟩, hdata⟩ := hok
    obtain ⟨b, rfl⟩ := Int.eq_ofNat_of_zero_le hx
    obtain ⟨buf, rfl⟩ := Option.isSome_iff_exists.1 hdata
    obtain ⟨s', hr, hs'⟩ := hkeep.read hc hon buf
    refine ⟨_, s', hr, ⟨rfl, ?_⟩, f, hs', hf'⟩
    rintro _ _ ⟨⟩
    rfl
  | writeRaid x data =>
    obtain ⟨⟨hx, hon⟩, hdata⟩ := hok
    obtain ⟨b, rfl⟩ := Int.eq_ofNat_of_zero_le hx
    obtain ⟨buf, rfl⟩ := Option.isSome_iff_exists.1 hdata
    obtain ⟨s', hr, hs'⟩ := hkeep.write hc hon hw buf
    exact ⟨_, s', hr, ⟨rfl, fun _ _ h => by cases h⟩, f, hs', hf'⟩
  | diskFailRaid x =>
    obtain ⟨h₁, h₂, hfirst⟩ := hok
    obtain ⟨d, rfl⟩ := Int.eq_ofNat_of_zero_le (show 0 ≤ x by omega)
    -- no failure so far, so no disk has failed
    have hnone : f = none := by
      by_contra hne
      obtain ⟨c, hmem, hc⟩ := hf hne
      simp [hfirst c hmem] at hc
    subst hnone
    obtain ⟨s', hr, hs'⟩ := hkeep.fail hc (d := d) (by omega) (by omega)
    exact ⟨_, s', hr, ⟨rfl, fun _ _ h => by cases h⟩, _, hs', fun _ => ⟨_, List.mem_cons_self, rfl⟩⟩
  | _ => exact hok.elim

/-- **A degraded array serves reads and writes**, if every write to a block on the dead disk whose
stripe is cached finds the slot of the disk up to date. -/
theorem serves_degraded (hc : ParityConfig cfg t) :
    Serves cfg t fun h s c => OneFailure cfg h c ∧ WriteFindsSlot cfg t s c := by
  intro s₀ hs₀
  obtain ⟨s₁, hr, hstart⟩ := init_keeps hc hs₀
  refine ⟨s₁, hr, ?_⟩
  intro h s c hreach hok
  have hI : ServesInv cfg t h s := by
    refine hreach.inv (ServesInv cfg t) ⟨none, hstart, fun hne => absurd rfl hne⟩ ?_
    intro h s c r s' hI hok hret
    obtain ⟨r', s'', hret', -, hI'⟩ := hI.step hc hok.1 hok.2
    rwa [(hret.unique hret').2]
  obtain ⟨r, s', hret, hans, -⟩ := hI.step hc hok.1 hok.2
  exact ⟨r, s', hret, hans⟩

instance (cfg : Config) (t : RaidType) (s : Machine) : ∀ c, Decidable (WriteFindsSlot cfg t s c)
  | .writeRaid x _ => inferInstanceAs (Decidable (SlotCurrent cfg t s x.toNat))
  | .initRaid _ | .readRaid .. | .diskFailRaid _ | .diskRepairedRaid _ | .infoRaid | .destroyRaid
  | .reboot | .elsewhere _ => inferInstanceAs (Decidable True)

/-- Block `0` is written before and after its disk fails. -/
def degradedWrites : List Call :=
  [.writeRaid 0 (some (bytes 7)), .diskFailRaid 1, .writeRaid 0 (some (bytes 9))]

/-- After the run above block `0` reads as `9`. -/
theorem serves_degraded_three : ParityConfig (smallConfig 3) .RAID4 ∧
    Serves (smallConfig 3) .RAID4 (fun h s c =>
      OneFailure (smallConfig 3) h c ∧ WriteFindsSlot (smallConfig 3) .RAID4 s c) ∧
    ∃ s₁ r s', Returns (exec (smallConfig 3) (.initRaid 3)) blankMachine { code := 0 } s₁ ∧
      Returns (exec (smallConfig 3) (.readRaid 0 (some (bytes 0))))
        (Reach.after (exec (smallConfig 3)) degradedWrites s₁) r s' ∧
      r.data.map Prod.fst = some (bytes 9).1 := by
  have hc : ParityConfig (smallConfig 3) .RAID4 := ⟨.inl rfl, by decide, by decide⟩
  obtain ⟨_, ⟨hinit, rfl⟩, hrun⟩ := serves_degraded hc blankMachine blankMachine_blank
  obtain ⟨r, s', hret, -, hdata⟩ := hrun degradedWrites.reverse _ (.readRaid 0 (some (bytes 0)))
    (.of_allows_start (by decide +kernel)) ⟨by decide, trivial⟩
  exact ⟨hc, serves_degraded hc, _, r, s', ⟨hinit, rfl⟩, hret, hdata 0 _ rfl⟩

/-- The run in which a write is lost.  Block `0` lives on disk `1`, and its write leaves a `7` in
the slot of that disk.  After the failure, reading block `3` loads the next stripe without disk
`1`, so the slot keeps the `7`; writing block `2`, which lives on disk `1` of that stripe, takes
the `7` for the old contents. -/
def lostWrite : List Call :=
  [.writeRaid 0 (some (bytes 7)), .diskFailRaid 1, .readRaid 3 (some (bytes 0)),
    .writeRaid 2 (some (bytes 9))]

/-- **A degraded array loses data**: after the run above block `2` reads as `14`, not as `9`. -/
theorem degraded_write_loses_data :
    ¬ Serves (smallConfig 3) .RAID4 fun h _ c => OneFailure (smallConfig 3) h c := by
  intro hserves
  obtain ⟨_, ⟨-, rfl⟩, hrun⟩ := hserves blankMachine blankMachine_blank
  obtain ⟨r, s', hret, -, hdata⟩ := hrun lostWrite.reverse _ (.readRaid 2 (some (bytes 0)))
    (.of_allows_start (by decide +kernel)) (by decide)
  have hread : replyOf (exec (smallConfig 3) (.readRaid 2 (some (bytes 0)))
      (Reach.after (exec (smallConfig 3)) lostWrite
        (exec (smallConfig 3) (.initRaid RaidType.RAID4.code) blankMachine).state)) = some r :=
    replyOf_of_returns hret
  have hbyte := congrArg (Option.map fun r => (r.data.map Prod.fst).map fun x => x 0) hread
  rw [Option.map_some, hdata 2 _ rfl] at hbyte
  exact absurd hbyte (by decide +kernel)

/-! ### A healthy array -/

/-- Reads of blocks on the disks succeed, and every read that succeeds delivers what the history
`h` asks for. -/
def ReadsLatest (cfg : Config) (h : List Call) (s : Machine) : Prop :=
  (∀ b buf, cfg.OnDisk (stripeOf cfg.disks b) →
    ∃ r s', Returns (exec cfg (.readRaid b (some buf))) s r s' ∧ r.code = 0) ∧
  ∀ x data r s', Returns (exec cfg (.readRaid x data)) s r s' → r.code = 0 →
    Answers h (.readRaid x data) r

theorem Keeps.readsLatest (hkeep : Keeps cfg t f h s) (hc : ParityConfig cfg t) :
    ReadsLatest cfg h s := by
  refine ⟨?_, ?_⟩
  · intro b buf hb
    obtain ⟨s', hr, -⟩ := hkeep.read hc hb buf
    exact ⟨_, s', hr, rfl⟩
  · intro x data r s' hr hcode
    obtain ⟨L, m, hL, -⟩ := id hkeep
    rcases readRaid_cases hc hL.raidMetadata hL.shape hr with ⟨hrej, -⟩ | ⟨b, buf, rfl, rfl, hb⟩
    · omega
    · obtain ⟨s₁, hr₁, -⟩ := hkeep.read hc hb buf
      obtain ⟨rfl, -⟩ := hr.unique hr₁
      refine ⟨rfl, ?_⟩
      rintro _ _ ⟨⟩
      rfl

/-- With no disk dead, every slot is as up to date as a write needs it. -/
theorem Keeps.slotCurrent (hkeep : Keeps cfg t none h s) (hc : ParityConfig cfg t) (b : ℕ) :
    SlotCurrent cfg t s b := by
  intro m hm _ hdead
  obtain ⟨L, m', hL, -⟩ := hkeep
  obtain rfl := Option.mem_unique hL.raidMetadata hm
  have hn := hc.disks
  obtain ⟨h₁, h₂, -⟩ := dataDiskOf_spec (t := t) (show 2 ≤ cfg.disks by omega) b
  cases (hL.shape.dead_iff _ h₁ h₂).1 hdead

theorem keeps_of_accesses (hc : ParityConfig cfg t) {s₁ : Machine} (hs₁ : Keeps cfg t none [] s₁)
    (hreach : Reach (exec cfg) (fun _ _ c => c.isAccess = true) s₁ h s) :
    Keeps cfg t none h s := by
  refine hreach.inv (Keeps cfg t none) hs₁ ?_
  intro h s c r s' hkeep hok hr
  cases c with
  | readRaid x data => exact hkeep.of_read hc hr
  | writeRaid x data => exact hkeep.of_write hc (fun b _ => hkeep.slotCurrent hc b) hr
  | _ => cases hok

/-- Reads do not change what a read ought to deliver. -/
theorem latest_append_of_reads {h' : List Call} (hreads : ∀ c ∈ h', c.isRead = true) (b : ℕ) :
    latest (h' ++ h) b = latest h b := by
  induction h' with
  | nil => rfl
  | cons c h' ih =>
    have hrest := ih fun c hc => hreads c (List.mem_cons_of_mem _ hc)
    have hc := hreads c List.mem_cons_self
    cases c with
    | readRaid x data => exact hrest
    | _ => cases hc

/-- Reads after a failure: whatever is read, the array keeps what it held. -/
theorem keeps_of_reads (hc : ParityConfig cfg t) {s₂ : Machine} {h' : List Call} {c : Call}
    (hs₂ : Keeps cfg t f (c :: h) s₂)
    (hreach : Reach (exec cfg) (fun _ _ c => c.isRead = true) s₂ h' s) :
    Keeps cfg t f (h' ++ c :: h) s ∧ ∀ c ∈ h', c.isRead = true := by
  refine hreach.inv (fun h' s => Keeps cfg t f (h' ++ c :: h) s ∧ ∀ c ∈ h', c.isRead = true)
    ⟨hs₂, by simp⟩ ?_
  rintro h' s c' r s' ⟨hkeep, hreads⟩ hok hr
  cases c' with
  | readRaid x data => exact ⟨hkeep.of_read hc hr, by simpa [Call.isRead] using hreads⟩
  | _ => cases hok

/-- The blocks of every stripe add up to zero, the slots agree with the disks, and reads deliver the
latest writes; and after the failure of any one disk, all further reads still do. -/
structure ParityExact (cfg : Config) (h : List Call) (s : Machine) : Prop where
  parity : ∀ k, 1 ≤ k → ∑ d ∈ Icc 1 cfg.disks, s.disk d (2 * k) = 0
  cache : ∀ m (k d : ℕ), s.raidMetadata = some m → m.stripe = k → 1 ≤ d → d ≤ cfg.disks →
    s.page d = s.disk d (2 * k)
  reads : ReadsLatest cfg h s
  degraded : ∀ d : ℕ, 1 ≤ d → d ≤ cfg.disks →
    ∃ s₂, Returns (exec cfg (.diskFailRaid d)) s { code := 0 } s₂ ∧
      ∀ h' s₃, Reach (exec cfg) (fun _ _ c => c.isRead = true) s₂ h' s₃ → ReadsLatest cfg h s₃

/-- **A healthy array keeps parity and cache exact**, after any sequence of reads and writes. -/
theorem parity_exact (hc : ParityConfig cfg t) {s₀ : Machine} (hs₀ : s₀.Blank) :
    ∃ s₁, Returns (exec cfg (.initRaid t.code)) s₀ { code := 0 } s₁ ∧
      ∀ h s, Reach (exec cfg) (fun _ _ c => c.isAccess = true) s₁ h s → ParityExact cfg h s := by
  obtain ⟨s₁, hr, hstart⟩ := init_keeps hc hs₀
  refine ⟨s₁, hr, ?_⟩
  intro h s hreach
  have hkeep := keeps_of_accesses hc hstart hreach
  obtain ⟨L, m, hL, -⟩ := id hkeep
  refine ⟨?_, ?_, hkeep.readsLatest hc, ?_⟩
  · intro k hk
    rw [← hL.sum_eq_zero k hk]
    refine Finset.sum_congr rfl fun d hd => ?_
    obtain ⟨h₁, h₂⟩ := mem_Icc.1 hd
    exact hL.disk d k h₁ h₂ hk (by simp)
  · intro m' k d hm hk h₁ h₂
    obtain rfl := Option.mem_unique hL.raidMetadata hm
    rw [hL.slots k hk d h₁ h₂ (.inl (by simp)),
      hL.disk d k h₁ h₂ (hL.shape.cached k hk).1 (by simp)]
  · intro d h₁ h₂
    obtain ⟨s₂, hr₂, hs₂⟩ := hkeep.fail hc h₁ h₂
    refine ⟨s₂, hr₂, ?_⟩
    intro h' s₃ hreach'
    obtain ⟨hkeep', hreads⟩ := keeps_of_reads hc hs₂ hreach'
    have hread := hkeep'.readsLatest hc
    refine ⟨hread.1, fun x data r s' hret hcode => ⟨hcode, fun y data' hy => ?_⟩⟩
    have hans := (hread.2 x data r s' hret hcode).2 y data' hy
    rwa [latest_append_of_reads hreads, latest_diskFailRaid] at hans

/-- Writes to two blocks of the first stripe and one of the second. -/
def threeWrites : List Call :=
  [.writeRaid 0 (some (bytes 7)), .writeRaid 1 (some (bytes 9)), .writeRaid 2 (some (bytes 5))]

theorem parity_exact_three : ∃ s₁,
    Returns (exec (smallConfig 3) (.initRaid 4)) blankMachine { code := 0 } s₁ ∧
      (∀ h s, Reach (exec (smallConfig 3)) (fun _ _ c => c.isAccess = true) s₁ h s →
        ParityExact (smallConfig 3) h s) ∧
      ParityExact (smallConfig 3) threeWrites.reverse
      (Reach.after (exec (smallConfig 3)) threeWrites s₁) ∧
      ([1, 2, 3].map fun d => (Reach.after (exec (smallConfig 3)) threeWrites s₁).disk d 2 0) =
        [Bits.ofNat 8 7, Bits.ofNat 8 9, Bits.ofNat 8 14] := by
  have hc : ParityConfig (smallConfig 3) .RAID5 := ⟨.inr rfl, by decide, by decide⟩
  obtain ⟨_, ⟨hr, rfl⟩, hs₁⟩ := parity_exact hc blankMachine_blank
  exact ⟨_, ⟨hr, rfl⟩, hs₁, hs₁ _ _ (.of_allows_start (by decide +kernel)), by decide +kernel⟩

/-! ### Repair -/

/-- With no disk dead, every stripe satisfies the parity equation on the disks, and every block is
where it belongs. -/
def Redundant (cfg : Config) (t : RaidType) (h : List Call) (s : Machine) : Prop :=
  ∀ m, s.raidMetadata = some m → (∀ d, 1 ≤ d → d ≤ cfg.disks → ¬ m.Dead d) →
    (∀ k, 1 ≤ k → ∑ d ∈ Icc 1 cfg.disks, s.disk d (2 * k) = 0) ∧
    ∀ b, cfg.OnDisk (stripeOf cfg.disks b) →
      s.disk (dataDiskOf t cfg.disks b) (2 * stripeOf cfg.disks b) = (latest h b).1

/-- The array is created on zero-filled disks, and is redundant after every run of calls allowed by
`ok`. -/
def StaysRedundant (cfg : Config) (t : RaidType) (ok : List Call → Machine → Call → Prop) : Prop :=
  ∀ s₀ : Machine, s₀.Blank → ∃ s₁, Returns (exec cfg (.initRaid t.code)) s₀ { code := 0 } s₁ ∧
    ∀ h s, Reach (exec cfg) ok s₁ h s → Redundant cfg t h s

/-- Accesses, failures and repairs, with at most one disk dead at a time. -/
def OneDeadAtATime (cfg : Config) (s : Machine) : Call → Prop
  | .readRaid _ _ => True
  | .writeRaid _ _ => True
  | .diskFailRaid x => NoOtherDead cfg s x
  | .diskRepairedRaid _ => True
  | _ => False

instance (cfg : Config) (s : Machine) : ∀ c, Decidable (OneDeadAtATime cfg s c)
  | .readRaid _ _ | .writeRaid _ _ | .diskRepairedRaid _ => inferInstanceAs (Decidable True)
  | .diskFailRaid x => inferInstanceAs (Decidable (NoOtherDead cfg s x))
  | .initRaid _ | .infoRaid | .destroyRaid | .reboot | .elsewhere _ =>
    inferInstanceAs (Decidable False)

/-- A disk that is put back into service has been rebuilt. -/
def RepairFindsRebuilt (cfg : Config) (t : RaidType) (s : Machine) : Call → Prop
  | .diskRepairedRaid x => ∀ m d, Addresses cfg s x m d → m.Dead d → Rebuilt cfg t s d
  | _ => True

theorem Keeps.redundant (hkeep : Keeps cfg t f h s) (hc : ParityConfig cfg t) :
    Redundant cfg t h s := by
  obtain ⟨L, m', hL, htr⟩ := hkeep
  intro m hm hlive
  obtain rfl := Option.mem_unique hL.raidMetadata hm
  have hf : ∀ d, 1 ≤ d → d ≤ cfg.disks → f ≠ some d := fun d h₁ h₂ =>
    (hL.shape.dead_iff d h₁ h₂).not.1 (hlive d h₁ h₂)
  refine ⟨?_, ?_⟩
  · intro k hk
    rw [← hL.sum_eq_zero k hk]
    refine Finset.sum_congr rfl fun d hd => ?_
    obtain ⟨h₁, h₂⟩ := mem_Icc.1 hd
    exact hL.disk d k h₁ h₂ hk (hf d h₁ h₂)
  · intro b hb
    have hn := hc.disks
    obtain ⟨h₁, h₂, -⟩ := dataDiskOf_spec (t := t) (show 2 ≤ cfg.disks by omega) b
    rw [hL.disk _ _ h₁ h₂ (stripeOf_pos _ _) (hf _ h₁ h₂), htr b hb]

/-- **Redundancy after repair**, if writes to the dead disk find its slot up to date, and every disk
that is put back into service has been rebuilt. -/
theorem redundancy_after_repair (hc : ParityConfig cfg t) :
    StaysRedundant cfg t fun _ s c => OneDeadAtATime cfg s c ∧ WriteFindsSlot cfg t s c ∧
      RepairFindsRebuilt cfg t s c := by
  intro s₀ hs₀
  obtain ⟨s₁, hr, hstart⟩ := init_keeps hc hs₀
  refine ⟨s₁, hr, ?_⟩
  intro h s hreach
  have hI : ∃ f, Keeps cfg t f h s := by
    refine hreach.inv (fun h s => ∃ f, Keeps cfg t f h s) ⟨none, hstart⟩ ?_
    rintro h s c r s' ⟨f, hkeep⟩ ⟨hok, hslot, hreb⟩ hret
    cases c with
    | readRaid x data => exact ⟨f, hkeep.of_read hc hret⟩
    | writeRaid x data =>
      refine ⟨f, hkeep.of_write hc (fun b hb => ?_) hret⟩
      subst hb
      exact hslot
    | diskFailRaid x => exact hkeep.of_fail hc hok hret
    | diskRepairedRaid x => exact hkeep.of_repair hc hreb hret
    | _ => exact hok.elim
  obtain ⟨f, hkeep⟩ := hI
  exact hkeep.redundant hc

/-- Disk `1` fails and comes back before anything is written. -/
def cleanRepair : List Call :=
  [.diskFailRaid 1, .diskRepairedRaid 1, .writeRaid 0 (some (bytes 7))]

theorem redundancy_after_repair_three : ParityConfig (smallConfig 3) .RAID5 ∧
    StaysRedundant (smallConfig 3) .RAID5 (fun _ s c => OneDeadAtATime (smallConfig 3) s c ∧
      WriteFindsSlot (smallConfig 3) .RAID5 s c ∧ RepairFindsRebuilt (smallConfig 3) .RAID5 s c) ∧
    ∃ s₁, Returns (exec (smallConfig 3) (.initRaid 4)) blankMachine { code := 0 } s₁ ∧
      Redundant (smallConfig 3) .RAID5 cleanRepair.reverse
        (Reach.after (exec (smallConfig 3)) cleanRepair s₁) ∧
      ([1, 2, 3].map fun d => (Reach.after (exec (smallConfig 3)) cleanRepair s₁).disk d 2 0) =
        [Bits.ofNat 8 7, 0, Bits.ofNat 8 7] := by
  have hc : ParityConfig (smallConfig 3) .RAID5 := ⟨.inr rfl, by decide, by decide⟩
  obtain ⟨_, ⟨hinit, rfl⟩, hrun⟩ := redundancy_after_repair hc blankMachine blankMachine_blank
  refine ⟨hc, redundancy_after_repair hc, _, ⟨hinit, rfl⟩, hrun _ _ (.of_allows_start ?_),
    by decide +kernel⟩
  refine ⟨⟨⟨by decide +kernel, trivial, trivial⟩, by decide +kernel⟩, ⟨⟨trivial, trivial, ?_⟩,
    by decide +kernel⟩, ⟨⟨trivial, by decide +kernel, trivial⟩, by decide +kernel⟩, trivial⟩
  -- the disks are still full of zeros when disk `1` comes back, and no stripe is cached
  rintro m d ⟨-, -, hd, -⟩ _
  obtain rfl : d = 1 := by omega
  refine ⟨?_, ?_, ?_⟩
  · rintro (_ | k) hk
    · cases hk
    · rw [show (Icc 1 (smallConfig 3).disks).erase 1 = {2, 3} from rfl, sum_pair (by decide)]
      exact (add_zero (0 : Sector)).symm
  · rintro (_ | k) hk _ _
    · cases hk
    · rfl
  · rintro m k ⟨⟩ hk
    have hnone : (-1 : ℤ) = k := hk
    omega

/-- A write to block `0` while its disk is dead, and the repair of the disk. -/
def staleRepair : List Call :=
  [.diskFailRaid 1, .writeRaid 0 (some (bytes 7)), .diskRepairedRaid 1]

/-- **A repair restores nothing**: after the run above no disk is dead, and the first stripe has
`0`, `0` and `7` on its three disks. -/
theorem repair_leaves_parity_broken :
    ¬ StaysRedundant (smallConfig 3) .RAID4 fun _ s c => OneDeadAtATime (smallConfig 3) s c := by
  intro hstays
  obtain ⟨_, ⟨-, rfl⟩, hrun⟩ := hstays blankMachine blankMachine_blank
  have hlive : ∃ m ∈ (Reach.after (exec (smallConfig 3)) staleRepair
      (exec (smallConfig 3) (.initRaid 3) blankMachine).state).raidMetadata,
      ∀ d ∈ Icc 1 3, ¬ m.Dead d := by decide +kernel
  obtain ⟨m, hm, hlive⟩ := hlive
  have hred := hrun staleRepair.reverse _ (.of_allows_start (by decide +kernel)) m hm
    fun d h₁ h₂ => hlive d (mem_Icc.2 ⟨h₁, h₂⟩)
  exact absurd (congrFun (hred.1 1 le_rfl) 0) (by decide +kernel)

end RaidSystem
