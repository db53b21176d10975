/-
**What a mirrored array guarantees.**

The theorems about whole runs of `RAID1` and `RAID0_1` arrays with an even number of disks, from
`init_raid` on zero-filled disks.

A mirrored array goes on serving reads and writes while every column has a disk left
(`serves_mirrored`), as long as a write to a column that has lost a disk is made while that is the
only dead disk of the array.  The source does not see to that: it uses the `-1` in the place of the
lost copy as a disk number, and only a failure count of `1` keeps it from writing to it
(`second_failure_stops_writes`).

The two disks of a column agree (`mirrors_agree`) if every disk that is put back into service as a
copy has the contents of the primary already.  `disk_repaired_raid` copies nothing
(`repaired_copy_is_stale`).
-/

import RaidSystem.MirrorArray

set_option autoImplicit false

namespace RaidSystem

open Prog Function

variable {cfg : Config} {t : RaidType} {h : List Call} {s s' : Machine} {m : Raid} {r : Reply}
  {b d i k : ℕ} {buf : Block}

/-! ### Agreement of the mirrors -/

/-- The two disks of a column that has both agree on the first halves of all blocks from block `1`
on, and losing the primary does not change what any read delivers. -/
def MirrorsAgree (cfg : Config) (s : Machine) : Prop :=
  ∀ m (i d e : ℕ), s.raidMetadata = some m → i < cfg.disks / 2 → m.dataDisks i = d →
    m.copyDisks i = e → LiveDisk cfg m d → LiveDisk cfg m e →
    (∀ k, 1 ≤ k → cfg.OnDisk k → s.disk d (2 * k) = s.disk e (2 * k)) ∧
    ∀ r s', Returns (exec cfg (.diskFailRaid d)) s r s' →
      ∀ x y, Delivers cfg s x y ↔ Delivers cfg s' x y

/-- The array is created on zero-filled disks, and its mirrors agree after every run of calls
allowed by `ok`. -/
def StaysMirrored (cfg : Config) (t : RaidType) (ok : List Call → Machine → Call → Prop) : Prop :=
  ∀ s₀ : Machine, s₀.Blank → ∃ s₁, Returns (exec cfg (.initRaid t.code)) s₀ { code := 0 } s₁ ∧
    ∀ h s, Reach (exec cfg) ok s₁ h s → MirrorsAgree cfg s

/-- Accesses, failures and repairs. -/
def Call.isOrdinary : Call → Bool
  | .readRaid _ _ | .writeRaid _ _ | .diskFailRaid _ | .diskRepairedRaid _ => true
  | _ => false

/-- A dead disk that is put back into service as a copy has the contents of the primary of the first
column without a copy, which is where it goes. -/
def RepairFindsCopy (cfg : Config) (s : Machine) : Call → Prop
  | .diskRepairedRaid x => ∀ m d, Addresses cfg s x m d → m.Dead d →
      (∀ j < cfg.disks / 2, m.dataDisks j ≠ -1) → ∀ i < cfg.disks / 2, m.copyDisks i = -1 →
        (∀ j < i, m.copyDisks j ≠ -1) → ∀ k, 1 ≤ k → cfg.OnDisk k →
          s.disk d (2 * k) = s.disk (m.dataDisks i).toNat (2 * k)
  | _ => True

/-- The two disks of every column that has both agree. -/
def Agreeing (cfg : Config) (m : Raid) (s : Machine) : Prop :=
  ∀ i < cfg.disks / 2, ∀ d e : ℕ, m.dataDisks i = d → m.copyDisks i = e → ∀ k, 1 ≤ k →
    cfg.OnDisk k → s.disk d (2 * k) = s.disk e (2 * k)

/-- What holds along a run. -/
def MirrorInv (cfg : Config) (t : RaidType) (s : Machine) : Prop :=
  ∃ m, s.raidMetadata = some m ∧ MirrorMeta cfg t m ∧ Agreeing cfg m s

theorem MirrorInv.start (hc : MirrorConfig cfg t) (hs : Initialised cfg t s) :
    MirrorInv cfg t s := by
  refine ⟨freshMeta cfg t, hs.raidMetadata, hc.mirrorMeta_freshMeta, ?_⟩
  intro i _ d e _ _ k hk _
  rw [hs.disk d _ (by omega), hs.disk e _ (by omega)]

section

variable (hc : MirrorConfig cfg t) (hm : s.raidMetadata = some m) (hs : MirrorMeta cfg t m)

include hc hm hs

/-- A read that returns was rejected, found no primary, or delivers the block of the primary. -/
theorem readRaid_mirror_cases {x : ℤ} {data : Option Block}
    (hr : Returns (exec cfg (.readRaid x data)) s r s') :
    s' = s ∧ (r.code = -1 ∨ ∃ b d : ℕ, x = b ∧ m.Accepts b ∧ m.dataDisks (columnOf cfg b) = d ∧
      LiveDisk cfg m d ∧ cfg.OnDisk (blockOf cfg b) ∧
      r.data = some (s.disk d (2 * blockOf cfg b), s.disk d (2 * blockOf cfg b + 1))) := by
  obtain ⟨v, hv, rfl⟩ := returns_exec_readRaid.1 hr
  rcases accepted_or_rejected s x data with ⟨m', buf, b, hm', rfl, rfl, hx⟩ | hacc
  · obtain rfl := Option.mem_unique hm hm'
    obtain ⟨w, hw, rfl⟩ := (returns_readRaid_mirror hc hm hs hx).1 hv
    rcases (returns_readMirror hm (hc.columnOf_lt b) hs.roles).1 hw with
      ⟨-, -, rfl, rfl⟩ | ⟨d, hd, hl, hk, rfl, rfl⟩
    · exact ⟨rfl, .inl rfl⟩
    · exact ⟨rfl, .inr ⟨b, d, rfl, hx, hd, hl, hk, rfl⟩⟩
  · obtain ⟨rfl, rfl⟩ := (accessRaid_rejected hacc).1 hv
    exact ⟨rfl, .inl rfl⟩

/-- What a read delivers is what is on the primary of the column. -/
theorem delivers_iff {x : ℤ} {y : Sector} : Delivers cfg s x y ↔
      ∃ b d : ℕ, x = b ∧ m.Accepts b ∧ m.dataDisks (columnOf cfg b) = d ∧
        cfg.OnDisk (blockOf cfg b) ∧ y = s.disk d (2 * blockOf cfg b) := by
  constructor
  · rintro ⟨buf, r, s', hr, hcode, hdata⟩
    rcases (readRaid_mirror_cases hc hm hs hr).2 with hrej | ⟨b, d, rfl, hb, hd, -, hk, hval⟩
    · omega
    · refine ⟨b, d, rfl, hb, hd, hk, ?_⟩
      rw [hval] at hdata
      exact (Option.some_inj.1 hdata).symm
  · rintro ⟨b, d, rfl, hb, hd, hk, rfl⟩
    have hl : LiveDisk cfg m d := hs.roles.live_of_data (hc.columnOf_lt b) hd
    refine ⟨0, _, s, returns_exec_readRaid.2 ⟨_, (returns_readRaid_mirror hc hm hs hb).2 ⟨_,
      (returns_readMirror hm (hc.columnOf_lt b) hs.roles).2
        (.inr ⟨d, hd, hl, hk, rfl, rfl⟩), rfl⟩, rfl⟩, rfl, rfl⟩

/-- A write that returns was rejected, or wrote to its column. -/
theorem writeRaid_mirror_cases {x : ℤ} {data : Option Block}
    (hr : Returns (exec cfg (.writeRaid x data)) s r s') :
    s' = s ∨ ∃ b buf, s' = mirrorWritten m (columnOf cfg b) (blockOf cfg b) buf s := by
  obtain ⟨v, hv, rfl⟩ := returns_exec_writeRaid.1 hr
  rcases accepted_or_rejected s x data with ⟨m', buf, b, hm', rfl, rfl, hx⟩ | hacc
  · obtain rfl := Option.mem_unique hm hm'
    obtain ⟨w, hw, -⟩ := (returns_writeRaid_mirror hc hm hs hx).1 hv
    obtain ⟨-, -, -, rfl⟩ := (returns_writeMirror hm (hc.columnOf_lt b) hs.roles).1 hw
    exact .inr ⟨b, buf, rfl⟩
  · exact .inl ((accessRaid_rejected hacc).1 hv).2

end

theorem Agreeing.written (hag : Agreeing cfg m s) (hs : MirrorMeta cfg t m)
    (hi : i < cfg.disks / 2) : Agreeing cfg m (mirrorWritten m i k buf s) := by
  intro j hj d e hd he k' hk₁ hk
  rw [mirrorWritten_disk_fst hs.roles hi, mirrorWritten_disk_fst hs.roles hi]
  by_cases hji : j = i
  · subst hji
    simp only [hd, he, true_or, or_true, true_and]
    rw [hag j hj d e hd he k' hk₁ hk]
  · -- the disks of another column are not touched
    have hother : ∀ c : ℕ, m.dataDisks j = c ∨ m.copyDisks j = c →
        ¬ ((m.dataDisks i = c ∨ m.copyDisks i = c) ∧ k' = k) :=
      fun c hc h => hji (hs.roles.row_unique hj hi hc h.1)
    rw [if_neg (hother d (.inl hd)), if_neg (hother e (.inr he))]
    exact hag j hj d e hd he k' hk₁ hk

/-- Saving the metadata leaves the agreement of a column as it is. -/
theorem Agreeing.saved {live : ℕ → Prop} {m' m₁ : Raid} (hag : Agreeing cfg m s)
    (hsaved : Saved cfg live m' s s')
    (hpairs : ∀ i < cfg.disks / 2, ∀ d e : ℕ, m₁.dataDisks i = d → m₁.copyDisks i = e →
      m.dataDisks i = d ∧ m.copyDisks i = e ∨
        ∀ k, 1 ≤ k → cfg.OnDisk k → s.disk d (2 * k) = s.disk e (2 * k)) :
    Agreeing cfg m₁ s' := by
  intro i hi d e hd he k hk₁ hk
  rw [hsaved.disk d _ (by omega), hsaved.disk e _ (by omega)]
  rcases hpairs i hi d e hd he with ⟨hd, he⟩ | heq
  · exact hag i hi d e hd he k hk₁ hk
  · exact heq k hk₁ hk

/-- After a failure the columns that have both disks are among those that had. -/
theorem Agreeing.fail {live : ℕ → Prop} {m' : Raid} (hag : Agreeing cfg m s)
    (hsaved : Saved cfg live m' s s') (hm' : m.dataDisks i = d ∧ m' = promoteCopy (markDead m d) i ∨
      m.copyDisks i = d ∧ m' = dropCopy (markDead m d) i) : Agreeing cfg m' s' := by
  refine hag.saved hsaved fun j _ d' e hd' he => .inl ?_
  rcases hm' with ⟨-, rfl⟩ | ⟨-, rfl⟩
  · by_cases hji : j = i
    · simp only [promoteCopy, hji, update_self] at he
      omega
    · simp only [promoteCopy, markDead, update_of_ne hji] at hd' he
      exact ⟨hd', he⟩
  · by_cases hji : j = i
    · simp only [dropCopy, hji, update_self] at he
      omega
    · simp only [dropCopy, markDead, update_of_ne hji] at hd' he
      exact ⟨hd', he⟩

/-- One call of a run. -/
theorem MirrorInv.step (hc : MirrorConfig cfg t) (hI : MirrorInv cfg t s) {c : Call}
    (hok : c.isOrdinary = true) (hcopy : RepairFindsCopy cfg s c)
    (hr : Returns (exec cfg c) s r s') : MirrorInv cfg t s' := by
  obtain ⟨m, hm, hs, hag⟩ := hI
  cases c with
  | readRaid x data =>
    obtain ⟨rfl, -⟩ := readRaid_mirror_cases hc hm hs hr
    exact ⟨m, hm, hs, hag⟩
  | writeRaid x data =>
    rcases writeRaid_mirror_cases hc hm hs hr with rfl | ⟨b, buf, rfl⟩
    · exact ⟨m, hm, hs, hag⟩
    · exact ⟨m, mirrorWritten_raidMetadata.trans hm, hs, hag.written hs (hc.columnOf_lt b)⟩
  | diskFailRaid x =>
    rcases diskFailRaid_mirror_cases hc hm hs hr with rfl | ⟨d, m', i, -, hsaved, hs', -, hm'⟩
    · exact ⟨m, hm, hs, hag⟩
    · exact ⟨m', hsaved.raidMetadata, hs', hag.fail hsaved hm'⟩
  | diskRepairedRaid x =>
    rcases diskRepairedRaid_mirror_cases hc hm hs hr with rfl |
      ⟨d, m', i, haddr, hd, hsaved, hs', hi, hroles⟩
    · exact ⟨m, hm, hs, hag⟩
    · refine ⟨m', hsaved.raidMetadata, hs', hag.saved hsaved fun j hj d' e hd' he => ?_⟩
      rcases hroles with ⟨hhole, rfl⟩ | ⟨hall, hhole, hfirst, rfl⟩
      · -- the column that got a primary has no copy
        simp only [fillData, markRepaired] at hd' he
        have hji : j ≠ i := by
          rintro rfl
          have := hs.roles.hole j hj hhole
          omega
        exact .inl ⟨by rwa [update_of_ne hji] at hd', he⟩
      · simp only [fillCopy, markRepaired] at hd' he
        by_cases hji : j = i
        · subst hji
          rw [update_self] at he
          obtain rfl : d = e := by omega
          refine .inr fun k hk₁ hk => ?_
          rw [hcopy m d haddr hd hall j hj hhole hfirst k hk₁ hk, hd', Int.toNat_natCast]
        · exact .inl ⟨hd', by rwa [update_of_ne hji] at he⟩
  | _ => cases hok

/-- After the primary of a column was lost, reads deliver what they did. -/
theorem delivers_of_fail (hc : MirrorConfig cfg t) (hm : s.raidMetadata = some m)
    (hs : MirrorMeta cfg t m) {e : ℕ} (hd : m.dataDisks i = d) (he : m.copyDisks i = e)
    (hag : ∀ k, 1 ≤ k → cfg.OnDisk k → s.disk d (2 * k) = s.disk e (2 * k)) {live : ℕ → Prop}
    (hsaved : Saved cfg live (promoteCopy (markDead m d) i) s s')
    (hs' : MirrorMeta cfg t (promoteCopy (markDead m d) i)) (x : ℤ) (y : Sector) :
    Delivers cfg s x y ↔ Delivers cfg s' x y := by
  rw [delivers_iff hc hm hs, delivers_iff hc hsaved.raidMetadata hs']
  refine exists_congr fun b => ?_
  have hblock : 1 ≤ blockOf cfg b := Nat.le_add_left 1 _
  have hdisk : ∀ c : ℕ, s'.disk c (2 * blockOf cfg b) = s.disk c (2 * blockOf cfg b) :=
    fun c => hsaved.disk c _ (by omega)
  simp only [hdisk]
  by_cases hcol : columnOf cfg b = i
  · -- the copy takes over
    have hnew : (promoteCopy (markDead m d) i).dataDisks (columnOf cfg b) = e := by
      simp [promoteCopy, markDead, hcol, he]
    rw [hnew, hcol, hd]
    constructor
    · rintro ⟨c, hx, hb, hc, hk, hy⟩
      obtain rfl : d = c := by omega
      exact ⟨e, hx, hb, rfl, hk, by rw [hy, hag _ hblock hk]⟩
    · rintro ⟨c, hx, hb, hc, hk, hy⟩
      obtain rfl : e = c := by omega
      exact ⟨d, hx, hb, rfl, hk, by rw [hy, hag _ hblock hk]⟩
  · have hnew : (promoteCopy (markDead m d) i).dataDisks (columnOf cfg b) =
        m.dataDisks (columnOf cfg b) := by
      simp [promoteCopy, markDead, hcol]
    rw [hnew]
    exact Iff.rfl

theorem MirrorInv.mirrorsAgree (hc : MirrorConfig cfg t) (hI : MirrorInv cfg t s) :
    MirrorsAgree cfg s := by
  obtain ⟨m₀, hm₀, hs, hag⟩ := hI
  intro m i d e hm hi hd he _ _
  obtain rfl := Option.mem_unique hm₀ hm
  refine ⟨hag i hi d e hd he, ?_⟩
  intro r s' hr x y
  rcases diskFailRaid_mirror_cases hc hm hs hr with rfl | ⟨d', m', j, hdd, hsaved, hs', hj, hm'⟩
  · exact Iff.rfl
  · obtain rfl : d = d' := by omega
    rcases hm' with ⟨hjd, rfl⟩ | ⟨hjd, -⟩
    · obtain rfl : j = i := hs.roles.row_unique hj hi (.inl hjd) (.inl hd)
      exact delivers_of_fail hc hm hs hd he (hag j hi d e hd he) hsaved hs' x y
    · have := hs.roles.disjoint i hi j hj (hd.trans hjd.symm)
      omega

/-- **Mirrors agree**, if every disk that is put back into service as a copy has the contents of its
primary. -/
theorem mirrors_agree (hc : MirrorConfig cfg t) :
    StaysMirrored cfg t fun _ s c => c.isOrdinary = true ∧ RepairFindsCopy cfg s c := by
  intro s₀ hs₀
  obtain ⟨s₁, hr, hs₁⟩ := hc.init_returns hs₀
  refine ⟨s₁, hr, ?_⟩
  intro h s hreach
  have hI : MirrorInv cfg t s := by
    refine hreach.inv (fun _ s => MirrorInv cfg t s) (MirrorInv.start hc hs₁) ?_
    intro h s c r s' hI hok hret
    exact hI.step hc hok.1 hok.2 hret
  exact hI.mirrorsAgree hc

/-- Disk `4` fails and comes back before anything is written. -/
def cleanCopy : List Call :=
  [.diskFailRaid 4, .diskRepairedRaid 4, .writeRaid 0 (some (bytes 7)),
    .writeRaid 1 (some (bytes 9))]

theorem mirrors_agree_four : MirrorConfig (smallConfig 4) .RAID0_1 ∧
    StaysMirrored (smallConfig 4) .RAID0_1 (fun _ s c =>
      c.isOrdinary = true ∧ RepairFindsCopy (smallConfig 4) s c) ∧
    ∃ s₁, Returns (exec (smallConfig 4) (.initRaid 2)) blankMachine { code := 0 } s₁ ∧
      MirrorsAgree (smallConfig 4) (Reach.after (exec (smallConfig 4)) cleanCopy s₁) ∧
      ([1, 2, 3, 4].map fun d => (Reach.after (exec (smallConfig 4)) cleanCopy s₁).disk d 2 0) =
        [Bits.ofNat 8 7, Bits.ofNat 8 9, Bits.ofNat 8 7, Bits.ofNat 8 9] := by
  have hc : MirrorConfig (smallConfig 4) .RAID0_1 := ⟨.inr rfl, by decide, by decide⟩
  obtain ⟨_, ⟨hinit, rfl⟩, hrun⟩ := mirrors_agree hc blankMachine blankMachine_blank
  obtain ⟨_, ⟨-, rfl⟩, hs₁⟩ := hc.init_returns blankMachine_blank
  refine ⟨hc, mirrors_agree hc, _, ⟨hinit, rfl⟩, hrun cleanCopy.reverse _ (.of_allows_start ?_),
    by decide +kernel⟩
  have hfails : (exec (smallConfig 4) (.diskFailRaid 4)
      (exec (smallConfig 4) (.initRaid RaidType.RAID0_1.code) blankMachine).state).val.toBool =
        true := by
    decide +kernel
  refine ⟨⟨⟨rfl, trivial⟩, hfails⟩, ⟨⟨rfl, ?_⟩, by decide +kernel⟩,
    ⟨⟨rfl, trivial⟩, by decide +kernel⟩, ⟨⟨rfl, trivial⟩, by decide +kernel⟩, trivial⟩
  -- the disks are still full of zeros when disk `4` comes back
  intro m d _ _ _ i _ _ _ k hk _
  have hj : 2 ≤ 2 * k := by omega
  obtain ⟨r, hr⟩ := Reach.returns_of_toBool hfails
  rcases diskFailRaid_mirror_cases hc hs₁.raidMetadata hc.mirrorMeta_freshMeta hr with
    hsame | ⟨_, _, _, -, hsaved, -⟩
  · rw [hsame, hs₁.disk _ _ hj, hs₁.disk _ _ hj]
  · rw [hsaved.disk _ _ hj, hsaved.disk _ _ hj, hs₁.disk _ _ hj, hs₁.disk _ _ hj]

/-- A write while the copy is dead, and the repair of the copy. -/
def staleCopy : List Call :=
  [.diskFailRaid 2, .writeRaid 0 (some (bytes 7)), .diskRepairedRaid 2]

/-- **A repaired copy is stale**: after the run above the two disks of the only column have `7` and
`0` in block `1`. -/
theorem repaired_copy_is_stale :
    ¬ StaysMirrored (smallConfig 2) .RAID1 fun _ _ c => c.isOrdinary = true := by
  intro hstays
  obtain ⟨_, ⟨-, rfl⟩, hrun⟩ := hstays blankMachine blankMachine_blank
  have hroles : ∃ m ∈ (Reach.after (exec (smallConfig 2)) staleCopy
      (exec (smallConfig 2) (.initRaid 1) blankMachine).state).raidMetadata,
      m.dataDisks 0 = 1 ∧ m.copyDisks 0 = 2 ∧ ¬ m.Dead 1 ∧ ¬ m.Dead 2 := by decide +kernel
  obtain ⟨m, hm, hdata, hcopy, hd₁, hd₂⟩ := hroles
  have hagree := (hrun staleCopy.reverse _ (.of_allows_start (by decide +kernel)) m 0 1 2 hm
    (by decide) hdata hcopy ⟨by decide, by decide, hd₁⟩ ⟨by decide, by decide, hd₂⟩).1 1 le_rfl
    (by decide)
  exact absurd (congrFun hagree 0) (by decide +kernel)

/-! ### Serving with a disk left in every column -/

/-- Block transfers go to disks of the array that are not dead in the state `s`. -/
def OnLive (cfg : Config) (s : Machine) : Access → Prop
  | .read x _ => ∃ m d, s.raidMetadata = some m ∧ x = (d : ℕ) ∧ LiveDisk cfg m d
  | .write x _ => ∃ m d, s.raidMetadata = some m ∧ x = (d : ℕ) ∧ LiveDisk cfg m d
  | _ => True

/-- The reply to an access is a success, and the reply to a read is the latest write. -/
def AnswersFully (h : List Call) (c : Call) (r : Reply) : Prop :=
  c.isAccess = true → r.code = 0 ∧ ∀ x data, c = .readRaid x data → r.data = some (latest h x.toNat)

/-- The array is created on zero-filled disks, and then every call allowed by `ok` in a run of
allowed calls returns, with the right answer; and all transfers go to disks that are not dead. -/
def ServesMirrored (cfg : Config) (t : RaidType) (ok : List Call → Machine → Call → Prop) : Prop :=
  ∀ s₀ : Machine, s₀.Blank → ∃ s₁, Returns (exec cfg (.initRaid t.code)) s₀ { code := 0 } s₁ ∧
    Traces (OnLive cfg s₁) (exec cfg (.initRaid t.code)) s₀ ∧
    ∀ h s c, Reach (exec cfg) ok s₁ h s → ok h s c →
      ∃ r s', Returns (exec cfg c) s r s' ∧ AnswersFully h c r ∧
        Traces (OnLive cfg s') (exec cfg c) s

/-- The logical block `x` is one that the array has, on the disks. -/
def OnColumn (cfg : Config) (x : ℤ) : Prop :=
  0 ≤ x ∧ x < capacity cfg (cfg.disks / 2) ∧ cfg.OnDisk (blockOf cfg x.toNat)

instance (cfg : Config) (x : ℤ) : Decidable (OnColumn cfg x) :=
  inferInstanceAs (Decidable (_ ∧ _ ∧ _))

/-- The other disk of the column that disk `d` was in at first. -/
def partner (cfg : Config) (d : ℕ) : ℕ :=
  if d ≤ cfg.disks / 2 then d + cfg.disks / 2 else d - cfg.disks / 2

theorem partner_cases (cfg : Config) (d : ℕ) :
    d ≤ cfg.disks / 2 ∧ partner cfg d = d + cfg.disks / 2 ∨
      cfg.disks / 2 < d ∧ partner cfg d = d - cfg.disks / 2 := by
  unfold partner
  split <;> omega

/-- Accesses to blocks of the array, with a buffer, and failures that leave every column a disk. -/
def ColumnsSurvive (cfg : Config) (s : Machine) : Call → Prop
  | .readRaid x data => OnColumn cfg x ∧ data.isSome
  | .writeRaid x data => OnColumn cfg x ∧ data.isSome
  | .diskFailRaid x => 1 ≤ x → x ≤ cfg.disks →
      ∀ m ∈ s.raidMetadata, ¬ m.Dead (partner cfg x.toNat)
  | _ => False

instance (cfg : Config) (s : Machine) : ∀ c, Decidable (ColumnsSurvive cfg s c)
  | .readRaid _ _ => inferInstanceAs (Decidable (_ ∧ _))
  | .writeRaid _ _ => inferInstanceAs (Decidable (_ ∧ _))
  | .diskFailRaid _ => inferInstanceAs (Decidable (_ → _ → _))
  | .initRaid _ | .infoRaid | .diskRepairedRaid _ | .destroyRaid | .reboot | .elsewhere _ =>
    inferInstanceAs (Decidable False)

/-- A write to a column that has lost a disk is made while one disk is dead. -/
def WriteFindsOneDead (cfg : Config) (s : Machine) : Call → Prop
  | .writeRaid x _ => ∀ m, s.raidMetadata = some m →
      m.copyDisks (columnOf cfg x.toNat) = -1 → m.numDeadDisks = 1
  | _ => True

/-- Every column has its two disks, or one of them as the primary. -/
def Columns (cfg : Config) (m : Raid) : Prop :=
  ∀ i < cfg.disks / 2, m.dataDisks i = i + 1 ∧ m.copyDisks i = i + 1 + (cfg.disks / 2 : ℕ) ∨
    (m.dataDisks i = i + 1 ∨ m.dataDisks i = i + 1 + (cfg.disks / 2 : ℕ)) ∧ m.copyDisks i = -1

/-- The disks of every column hold the latest writes to its blocks. -/
def HoldsLatest (cfg : Config) (m : Raid) (h : List Call) (s : Machine) : Prop :=
  ∀ b d : ℕ, m.dataDisks (columnOf cfg b) = d ∨ m.copyDisks (columnOf cfg b) = d →
    s.disk d (2 * blockOf cfg b) = (latest h b).1 ∧
      s.disk d (2 * blockOf cfg b + 1) = (latest h b).2

/-- What holds along a run. -/
def ServesMirroredInv (cfg : Config) (t : RaidType) (h : List Call) (s : Machine) : Prop :=
  ∃ m, s.raidMetadata = some m ∧ MirrorMeta cfg t m ∧ Columns cfg m ∧ HoldsLatest cfg m h s

theorem columnOf_blockOf_inj {b' : ℕ} (hcol : columnOf cfg b = columnOf cfg b')
    (hblk : blockOf cfg b = blockOf cfg b') : b = b' := by
  have hdiv : b / (cfg.disks / 2) = b' / (cfg.disks / 2) := by
    simpa [blockOf] using hblk
  rw [← Nat.div_add_mod b (cfg.disks / 2), ← Nat.div_add_mod b' (cfg.disks / 2), hdiv]
  exact congrArg _ hcol

theorem HoldsLatest.written (hc : MirrorConfig cfg t) (hs : MirrorMeta cfg t m)
    (hL : HoldsLatest cfg m h s) :
    HoldsLatest cfg m (.writeRaid b (some buf) :: h)
      (mirrorWritten m (columnOf cfg b) (blockOf cfg b) buf s) := by
  intro b' d hd
  have hcol := hc.columnOf_lt b
  rw [mirrorWritten_disk_fst hs.roles hcol, mirrorWritten_disk_snd hs.roles hcol, latest_write]
  by_cases hbb : b' = b
  · subst hbb
    simp [hd]
  · -- the disk is in another column, or the block is another one
    have hne : ¬ ((m.dataDisks (columnOf cfg b) = d ∨ m.copyDisks (columnOf cfg b) = d) ∧
        blockOf cfg b' = blockOf cfg b) := by
      rintro ⟨hd', hblk⟩
      exact hbb (columnOf_blockOf_inj (hs.roles.row_unique (hc.columnOf_lt b') hcol hd hd') hblk)
    rw [if_neg hne, if_neg hne, if_neg (by omega)]
    exact hL b' d hd

theorem ServesMirroredInv.start (hc : MirrorConfig cfg t) (hs : Initialised cfg t s) :
    ServesMirroredInv cfg t [] s := by
  refine ⟨freshMeta cfg t, hs.raidMetadata, hc.mirrorMeta_freshMeta, ?_, ?_⟩
  · intro i hi
    exact .inl ⟨freshMeta_dataDisks hc.type hi, freshMeta_copyDisks hc.type hi⟩
  · intro b d _
    have hblock : 1 ≤ blockOf cfg b := Nat.le_add_left 1 _
    rw [hs.disk d _ (by omega), hs.disk d _ (by omega)]
    exact ⟨rfl, rfl⟩

/-- A disk whose partner is not dead leaves its column a primary. -/
theorem Columns.fail (hc : MirrorConfig cfg t) (hcol : Columns cfg m) (hs : MirrorMeta cfg t m)
    (h₁ : 1 ≤ d) (h₂ : d ≤ cfg.disks) (hp : ¬ m.Dead (partner cfg d)) (hi : i < cfg.disks / 2)
    {m' : Raid} (hm' : m.dataDisks i = d ∧ m' = promoteCopy (markDead m d) i ∨
      m.copyDisks i = d ∧ m' = dropCopy (markDead m d) i) : Columns cfg m' := by
  have heven := hc.even
  have hpartner := partner_cases cfg d
  have hlive : LiveDisk cfg m (partner cfg d) := ⟨by omega, by omega, hp⟩
  -- the disks of a column are known by their numbers
  have hrow : ∀ l < cfg.disks / 2, ∀ e : ℕ, m.dataDisks l = e ∨ m.copyDisks l = e →
      e = l + 1 ∨ e = l + 1 + cfg.disks / 2 := by
    intro l hl e he
    rcases hcol l hl with ⟨hd, hc⟩ | ⟨hd | hd, hc⟩ <;> omega
  intro j hj
  by_cases hji : j = i
  · subst hji
    rcases hm' with ⟨hd, rfl⟩ | ⟨hd, rfl⟩
    · -- the partner has a role, which can only be that of the copy
      have hcopy : m.copyDisks j = partner cfg d := by
        have hdj := hrow j hj d (.inl hd)
        obtain ⟨l, hl, hlp⟩ : ∃ l < cfg.disks / 2,
            m.dataDisks l = partner cfg d ∨ m.copyDisks l = partner cfg d := by
          rcases hs.roles.onto _ hlive with ⟨l, hl, hlp⟩ | ⟨l, hl, hlp⟩
          · exact ⟨l, hl, .inl hlp⟩
          · exact ⟨l, hl, .inr hlp⟩
        have hpl := hrow l hl _ hlp
        obtain ⟨hpd, rfl⟩ : partner cfg d ≠ d ∧ l = j := by omega
        rcases hlp with hlp | hlp
        · omega
        · exact hlp
      have hpj := hrow j hj _ (.inr hcopy)
      right
      simp only [promoteCopy, markDead, update_self, and_true]
      omega
    · rcases hcol j hj with ⟨hd', -⟩ | ⟨-, hc'⟩
      · right
        simp only [dropCopy, markDead, update_self, and_true]
        exact .inl hd'
      · omega
  · rcases hm' with ⟨-, rfl⟩ | ⟨-, rfl⟩
    · simpa only [promoteCopy, markDead, update_of_ne hji] using hcol j hj
    · simpa only [dropCopy, markDead, update_of_ne hji] using hcol j hj

/-- A failure leaves the contents of the disks alone, and no disk changes its column. -/
theorem HoldsLatest.fail {m' : Raid} {live : ℕ → Prop} {x : ℤ} (hL : HoldsLatest cfg m h s)
    (hsaved : Saved cfg live m' s s') (hm' : m.dataDisks i = d ∧ m' = promoteCopy (markDead m d) i ∨
      m.copyDisks i = d ∧ m' = dropCopy (markDead m d) i) :
    HoldsLatest cfg m' (.diskFailRaid x :: h) s' := by
  intro b e he
  have hblock : 1 ≤ blockOf cfg b := Nat.le_add_left 1 _
  rw [hsaved.disk e _ (by omega), hsaved.disk e _ (by omega), latest_diskFailRaid]
  refine hL b e ?_
  rcases hm' with ⟨-, rfl⟩ | ⟨-, rfl⟩
  · by_cases hbi : columnOf cfg b = i
    · simp only [promoteCopy, markDead, hbi, update_self] at he
      rcases he with he | he
      · exact .inr (hbi ▸ he)
      · omega
    · simpa only [promoteCopy, markDead, update_of_ne hbi] using he
  · by_cases hbi : columnOf cfg b = i
    · simp only [dropCopy, markDead, hbi, update_self] at he
      rcases he with he | he
      · exact .inl (hbi ▸ he)
      · omega
    · simpa only [dropCopy, markDead, update_of_ne hbi] using he

theorem Columns.data (hcol : Columns cfg m) (hi : i < cfg.disks / 2) :
    ∃ d : ℕ, m.dataDisks i = d := by
  rcases hcol i hi with ⟨hd, -⟩ | ⟨hd | hd, -⟩
  · exact ⟨i + 1, by omega⟩
  · exact ⟨i + 1, by omega⟩
  · exact ⟨i + 1 + cfg.disks / 2, by omega⟩

theorem OnColumn.accepts (hs : MirrorMeta cfg t m) (hb : OnColumn cfg b) : m.Accepts b := by
  refine ⟨hs.raidInitialized, hb.1, ?_⟩
  rw [hs.maxBlocks]
  exact hb.2.1

/-! #### One call -/

/-- An accepted access of a mirrored array, as seen by rules about accesses. -/
theorem traces_accessFunction_mirror {P : Access → Prop} {f : Bodies} (hc : MirrorConfig cfg t)
    (hm : s.raidMetadata = some m) (hs : MirrorMeta cfg t m) (hdiv : P (.divisor (cfg.disks / 2)))
    (h : Traces P (f.mirror (columnOf cfg b) (blockOf cfg b) buf) s) :
    Traces P (accessFunction f t b buf) s := by
  rw [columnOf, blockOf, ← hs.numOfDisks] at h
  rw [← hs.numOfDisks] at hdiv
  rcases hc.type with rfl | rfl <;> exact traces_divided hm hdiv h

/-- For an empty place the test of the state looks at the failure count. -/
theorem deadAt_hole : deadAt cfg s m (-1 - 1) ↔ m.CountIsOne := by
  rw [deadAt, show (-1 - 1 : ℤ) = -2 by decide, Raid.word, Raid.locate_diskState_neg_two]
  exact Iff.rfl

section

variable (hc : MirrorConfig cfg t) (hI : ServesMirroredInv cfg t h s)

include hc hI

theorem ServesMirroredInv.read (hb : OnColumn cfg b) (buf : Block) :
    Returns (exec cfg (.readRaid b (some buf))) s { code := 0, data := some (latest h b) } s ∧
      Traces (OnLive cfg s) (exec cfg (.readRaid b (some buf))) s := by
  obtain ⟨m, hm, hs, hcol, hL⟩ := hI
  have hi := hc.columnOf_lt b
  have hacc := OnColumn.accepts hs hb
  obtain ⟨d, hd⟩ := hcol.data hi
  have hl : LiveDisk cfg m d := hs.roles.live_of_data hi hd
  have hk : cfg.OnDisk (blockOf cfg b) := hb.2.2
  obtain ⟨hfst, hsnd⟩ := hL b d (.inl hd)
  refine ⟨?_, ?_⟩
  · have hread : Returns (readMirror cfg (columnOf cfg b) (blockOf cfg b) buf) s
        (0, latest h b) s := by
      refine (returns_readMirror_live hm hi hd hl).2 ⟨hk, ?_, rfl⟩
      rw [hfst, hsnd]
    exact returns_exec_readRaid.2 ⟨_, (returns_readRaid_mirror hc hm hs hacc).2 ⟨_, hread, rfl⟩,
      rfl⟩
  · have hlive : ¬ deadAt cfg s m ((d : ℤ) - 1) := fun h => hl.2.2 ((deadAt_disk hl.1 hl.2.1).1 h)
    refine traces_exec_readRaid (traces_readRaid hm hacc hs.type hc.ne_other trivial
      (readFunction_eq t ▸ traces_accessFunction_mirror hc hm hs trivial ?_))
    exact traces_readMirror hm (hd ▸ dataDisks_returns hm hi) (copyDisks_returns hm hi) trivial
      trivial trivial (fun _ => ⟨m, d, hm, rfl, hl⟩) (fun h => absurd h hlive)
      fun h => absurd h hlive

theorem ServesMirroredInv.write (hb : OnColumn cfg b)
    (hone : ∀ m, s.raidMetadata = some m →
      m.copyDisks (columnOf cfg b) = -1 → m.numDeadDisks = 1) (buf : Block) :
    ∃ s', Returns (exec cfg (.writeRaid b (some buf))) s { code := 0, data := some buf } s' ∧
      Traces (OnLive cfg s') (exec cfg (.writeRaid b (some buf))) s ∧
      ServesMirroredInv cfg t (.writeRaid b (some buf) :: h) s' := by
  obtain ⟨m, hm, hs, hcol, hL⟩ := hI
  have hi := hc.columnOf_lt b
  have hacc := OnColumn.accepts hs hb
  obtain ⟨d, hd⟩ := hcol.data hi
  have hl : LiveDisk cfg m d := hs.roles.live_of_data hi hd
  have hne : m.dataDisks (columnOf cfg b) ≠ -1 := by omega
  have hcount : m.copyDisks (columnOf cfg b) = -1 → m.CountIsOne := by
    intro hhole
    rw [Raid.CountIsOne, hone m hm hhole]
    rfl
  have hwrite : Returns (writeMirror cfg (columnOf cfg b) (blockOf cfg b) buf) s (0, buf)
      (mirrorWritten m (columnOf cfg b) (blockOf cfg b) buf s) :=
    (returns_writeMirror hm hi hs.roles).2 ⟨fun _ => hb.2.2, hcount, by rw [if_neg hne], rfl⟩
  have hm' : (mirrorWritten m (columnOf cfg b) (blockOf cfg b) buf s).raidMetadata = some m :=
    mirrorWritten_raidMetadata.trans hm
  refine ⟨_, returns_exec_writeRaid.2 ⟨_, (returns_writeRaid_mirror hc hm hs hacc).2
    ⟨_, hwrite, rfl⟩, rfl⟩, ?_, m, hm', hs, hcol, hL.written hc hs⟩
  refine traces_exec_writeRaid (traces_writeRaid hm hacc hs.type hc.ne_other trivial
    (writeFunction_eq t ▸ traces_accessFunction_mirror hc hm hs trivial ?_))
  refine traces_writeMirror hm (hd ▸ dataDisks_returns hm hi) (copyDisks_returns hm hi) trivial
    trivial trivial (fun _ => ⟨m, d, hm', rfl, hl⟩) trivial fun hlive => ?_
  rcases hs.roles.copy_mem _ hi with hhole | ⟨e, he, hle⟩
  · -- an empty place is passed over
    rw [hhole] at hlive
    exact absurd (deadAt_hole.2 (hcount hhole)) hlive
  · exact ⟨m, e, hm', he, hle⟩

theorem ServesMirroredInv.fail {x : ℤ} (hok : ColumnsSurvive cfg s (.diskFailRaid x)) :
    ∃ r s', Returns (exec cfg (.diskFailRaid x)) s r s' ∧
      Traces (OnLive cfg s') (exec cfg (.diskFailRaid x)) s ∧
      ServesMirroredInv cfg t (.diskFailRaid x :: h) s' := by
  obtain ⟨m, hm, hs, hcol, hL⟩ := hI
  by_cases haddr : ∃ m d, Addresses cfg s x m d
  · obtain ⟨m', d, haddr⟩ := haddr
    obtain rfl := Option.mem_unique hm haddr.1
    obtain ⟨-, -, rfl, h₁, h₂⟩ := id haddr
    by_cases hd : m.Dead d
    · refine ⟨_, s, returns_exec_diskFailRaid.2 ⟨0, (returns_diskFailRaid haddr).2
        ⟨rfl, .inl ⟨hd, rfl⟩⟩, rfl⟩, traces_exec_diskFailRaid (traces_diskFailRaid haddr trivial
          (fun hlive => absurd hd hlive) fun hlive => absurd hd hlive), m, hm, hs, hcol, hL⟩
    · obtain ⟨s', m', i, hret, hroles, hsaved, hs', hi, hm'⟩ := diskFailRaid_mirror hc hs haddr hd
      refine ⟨_, s', returns_exec_diskFailRaid.2 ⟨0, hret, rfl⟩, ?_, m', hsaved.raidMetadata, hs',
        hcol.fail hc hs h₁ h₂ (hok (by omega) (by omega) m hm) hi hm', hL.fail hsaved hm'⟩
      refine traces_exec_diskFailRaid (traces_diskFailRaid haddr trivial (fun _ => ?_)
        fun _ s₁ hr₁ => ?_)
      · exact traces_failRoles rfl
          (fun _ _ _ => traces_failWithReserve (fun _ => ⟨trivial, trivial⟩) fun _ => trivial)
          fun _ _ => traces_failWithoutReserve (fun _ _ => ⟨trivial, trivial⟩) fun _ _ => trivial
      · obtain ⟨-, rfl⟩ := hr₁.unique hroles
        exact traces_writeback rfl (fun _ _ _ => trivial)
          fun e he₁ he₂ he => ⟨m', e, hsaved.raidMetadata, rfl, he₁, he₂, he⟩
  · exact ⟨_, s, returns_exec_diskFailRaid.2 ⟨-1, (diskFailRaid_refused haddr).2 ⟨rfl, rfl⟩, rfl⟩,
      traces_exec_diskFailRaid (traces_diskFailRaid_refused haddr), m, hm, hs, hcol, hL⟩

/-- One call of a run. -/
theorem ServesMirroredInv.step {c : Call} (hok : ColumnsSurvive cfg s c)
    (hone : WriteFindsOneDead cfg s c) :
    ∃ r s', Returns (exec cfg c) s r s' ∧ AnswersFully h c r ∧
      Traces (OnLive cfg s') (exec cfg c) s ∧ ServesMirroredInv cfg t (c :: h) s' := by
  cases c with
  | readRaid x data =>
    obtain ⟨hb, hdata⟩ := hok
    obtain ⟨b, rfl⟩ := Int.eq_ofNat_of_zero_le hb.1
    obtain ⟨buf, rfl⟩ := Option.isSome_iff_exists.1 hdata
    obtain ⟨hr, htr⟩ := hI.read hc hb buf
    refine ⟨_, s, hr, fun _ => ⟨rfl, ?_⟩, htr, hI⟩
    rintro _ _ ⟨⟩
    rfl
  | writeRaid x data =>
    obtain ⟨hb, hdata⟩ := hok
    obtain ⟨b, rfl⟩ := Int.eq_ofNat_of_zero_le hb.1
    obtain ⟨buf, rfl⟩ := Option.isSome_iff_exists.1 hdata
    obtain ⟨s', hr, htr, hI'⟩ := hI.write hc hb hone buf
    exact ⟨_, s', hr, fun _ => ⟨rfl, fun _ _ h => by cases h⟩, htr, hI'⟩
  | diskFailRaid x =>
    obtain ⟨r, s', hr, htr, hI'⟩ := hI.fail hc hok
    exact ⟨r, s', hr, fun hacc => (by cases hacc), htr, hI'⟩
  | _ => exact hok.elim

end

/-- The transfers of `init_raid`. -/
theorem MirrorConfig.init_traces (hc : MirrorConfig cfg t) {s₀ s₁ : Machine}
    (hs₁ : Initialised cfg t s₁) : Traces (OnLive cfg s₁) (exec cfg (.initRaid t.code)) s₀ := by
  have hn := hc.disks
  have hlive : ∀ d : ℕ, 1 ≤ d → d ≤ cfg.disks → ∃ m e, s₁.raidMetadata = some m ∧
      (d : ℤ) = (e : ℕ) ∧ LiveDisk cfg m e :=
    fun d h₁ h₂ => ⟨_, d, hs₁.raidMetadata, rfl, h₁, h₂, not_dead_freshMeta cfg t d⟩
  refine traces_exec_initRaid (traces_initRaid (by omega) _ (fun _ j h₁ h₂ => ?_)
    (fun _ _ => ⟨trivial, trivial⟩) hlive)
  have hsource := fetchSourceFrom_le s₀.super 1 (cfg.disks - 1)
  rw [fetchSource] at h₂
  exact ⟨hlive j h₁ (by omega), trivial⟩

/-- **A mirrored array serves reads and writes while every column has a disk left**, if every write
to a column that has lost a disk is made while that is the only dead disk. -/
theorem serves_mirrored (hc : MirrorConfig cfg t) :
    ServesMirrored cfg t fun _ s c => ColumnsSurvive cfg s c ∧ WriteFindsOneDead cfg s c := by
  intro s₀ hs₀
  obtain ⟨s₁, hr, hs₁⟩ := hc.init_returns hs₀
  refine ⟨s₁, hr, hc.init_traces hs₁, ?_⟩
  intro h s c hreach hok
  have hI : ServesMirroredInv cfg t h s := by
    refine hreach.inv (ServesMirroredInv cfg t) (ServesMirroredInv.start hc hs₁) ?_
    intro h s c r s' hI hok hret
    obtain ⟨r', s'', hret', -, -, hI'⟩ := hI.step hc hok.1 hok.2
    rwa [(hret.unique hret').2]
  obtain ⟨r, s', hret, hans, htr, -⟩ := hI.step hc hok.1 hok.2
  exact ⟨r, s', hret, hans, htr⟩

instance (cfg : Config) (s : Machine) : ∀ c, Decidable (WriteFindsOneDead cfg s c)
  | .writeRaid .. => inferInstanceAs (Decidable (∀ m ∈ s.raidMetadata, _ → _))
  | .initRaid _ | .readRaid .. | .diskFailRaid _ | .diskRepairedRaid _ | .infoRaid | .destroyRaid
  | .reboot | .elsewhere _ => inferInstanceAs (Decidable True)

/-- Block `0` is written before and after the primary of its column fails. -/
def primaryFails : List Call :=
  [.writeRaid 0 (some (bytes 7)), .diskFailRaid 1, .writeRaid 0 (some (bytes 9))]

/-- After the run above block `0` reads as `9`. -/
theorem serves_mirrored_four : MirrorConfig (smallConfig 4) .RAID1 ∧
    ServesMirrored (smallConfig 4) .RAID1 (fun _ s c =>
      ColumnsSurvive (smallConfig 4) s c ∧ WriteFindsOneDead (smallConfig 4) s c) ∧
    ∃ s₁ r s', Returns (exec (smallConfig 4) (.initRaid 1)) blankMachine { code := 0 } s₁ ∧
      Returns (exec (smallConfig 4) (.readRaid 0 (some (bytes 0))))
        (Reach.after (exec (smallConfig 4)) primaryFails s₁) r s' ∧ r.data = some (bytes 9) := by
  have hc : MirrorConfig (smallConfig 4) .RAID1 := ⟨.inl rfl, by decide, by decide⟩
  obtain ⟨_, ⟨hinit, rfl⟩, -, hrun⟩ := serves_mirrored hc blankMachine blankMachine_blank
  obtain ⟨r, s', hret, hans, -⟩ := hrun primaryFails.reverse _ (.readRaid 0 (some (bytes 0)))
    (.of_allows_start (by decide +kernel)) ⟨by decide +kernel, trivial⟩
  exact ⟨hc, serves_mirrored hc, _, r, s', ⟨hinit, rfl⟩, hret, (hans rfl).2 0 _ rfl⟩

/-- One disk of each of the two columns is lost. -/
def twoFailures : List Call := [.diskFailRaid 1, .diskFailRaid 2]

/-- **A second failure stops writes**: after the run above the count is `2`, and a write to block
`0` takes the `-1` in the place of the copy for the number of a disk. -/
theorem second_failure_stops_writes :
    ¬ ServesMirrored (smallConfig 4) .RAID1 fun _ s c => ColumnsSurvive (smallConfig 4) s c := by
  intro hserves
  obtain ⟨_, ⟨-, rfl⟩, -, hrun⟩ := hserves blankMachine blankMachine_blank
  obtain ⟨r, s', hret, -⟩ := hrun twoFailures.reverse _ (.writeRaid 0 (some (bytes 7)))
    (.of_allows_start (by decide +kernel)) (by constructor <;> decide)
  have hsome := congrArg Option.isSome (replyOf_of_returns hret)
  rw [Option.isSome_some] at hsome
  exact absurd hsome (by decide +kernel)

end RaidSystem
