/-
**The stripe cache, one operation at a time.**

What the helpers of `read_raid4`, `write_raid4`, `read_raid5` and `write_raid5` do to the cache
slots and to the disks: loading a stripe, rebuilding the slot of a dead disk, and writing one slot
together with the parity slot.

The slots are 512 bytes apart and a transfer moves 1024, so loading the slot of disk `d` also
overwrites the slot of disk `d + 1`.  The loop of `cache` loads the disks in increasing order, and
thereby repairs every slot it has spilled into, except two: the slot of a dead disk, which nothing
loads, and for `RAID5` the slot after the parity disk, because the parity block is loaded a second
time at the end.  That slot ends up with the second half of the parity block (`cache_returns`).

Main results:

* `cache_returns`, `loads_of_cache` — what loading a stripe leaves in the slots, and that it does
  not come back for a stripe beyond the end of the disks;
* `raidTocacheRecovery_returns` — the rebuilt slot is the sum of the other slots;
* `raidWriteUpdateparityCache_returns` — the written slot, the parity slot, and the blocks of the
  two disks;
* `readStripe_hit`, `writeStripe_hit`, `returns_readStripe_miss`, `returns_writeStripe_miss` — the
  four paths of an access.  A miss loads the stripe and continues like a hit, except that a write
  that misses also rebuilds the slot of a dead disk.
-/

import RaidSystem.Frames

set_option autoImplicit false

namespace RaidSystem

open Prog Finset Function

/-- Every transfer into or out of a cache slot stays in the page. -/
def Config.CacheFits (cfg : Config) : Prop := (cfg.disks + 2) * blocksize ≤ pgsize

instance (cfg : Config) : Decidable cfg.CacheFits := inferInstanceAs (Decidable (_ ≤ _))

/-- The slots after a block was loaded into slot `d`. -/
def spill (page : ℕ → Sector) (d : ℕ) (b : Block) : ℕ → Sector :=
  update (update page d b.1) (d + 1) b.2

section Slots

variable {page : ℕ → Sector} {d e : ℕ} {b : Block}

@[simp] theorem spill_self : spill page d b d = b.1 := by
  simp [spill]

@[simp] theorem spill_succ : spill page d b (d + 1) = b.2 := by
  simp [spill]

theorem spill_of_ne (h₁ : e ≠ d) (h₂ : e ≠ d + 1) : spill page d b e = page e := by
  simp [spill, h₁, h₂]

end Slots

variable {cfg : Config} {s s' : Machine} {m : Raid} {k d : ℕ}

/-! ### Loading a stripe -/

theorem slot_fits (hfit : cfg.CacheFits) (h₁ : 1 ≤ d) (h₂ : d ≤ cfg.disks) :
    (0 : ℤ) ≤ d - 1 ∧ (d : ℤ) - 1 < cfg.disks ∧
      (((d : ℤ) - 1).toNat + 1) * blocksize + bsize ≤ pgsize := by
  simp only [Config.CacheFits, blocksize, bsize, pgsize] at hfit ⊢
  omega

theorem toNat_sub_one_add_one (h₁ : 1 ≤ d) : ((d : ℤ) - 1).toNat + 1 = d := by
  omega

theorem slotSector_returns (hfit : cfg.CacheFits) (h₁ : 1 ≤ d) (h₂ : d ≤ cfg.disks) :
    Returns (slotSector cfg (d - 1) blocksize) s d s := by
  have h := slot_fits hfit h₁ h₂
  refine returns_slotSector.2 ⟨⟨h.1, h.2.1, ?_⟩, (toNat_sub_one_add_one h₁).symm, rfl⟩
  simp only [blocksize, bsize] at h ⊢
  omega

/-- Block `k` of disk `d` can be loaded: it lies on the disk, and the transfer into the slot stays
in the page. -/
def Loadable (cfg : Config) (k d : ℕ) : Prop := cfg.OnDisk k ∧ (d + 2) * blocksize ≤ pgsize

theorem Config.CacheFits.loadable (hfit : cfg.CacheFits) (hk : cfg.OnDisk k) (h₂ : d ≤ cfg.disks) :
    Loadable cfg k d :=
  ⟨hk, Nat.le_trans (Nat.mul_le_mul_right blocksize (Nat.add_le_add_right h₂ 2)) hfit⟩

theorem returns_cacheDisk (hm : s.raidMetadata = some m) (h₁ : 1 ≤ d) (h₂ : d ≤ cfg.disks)
    (hload : ¬ m.Dead d → Loadable cfg k d) {u : Unit} :
    Returns (cacheDisk cfg k (d - 1)) s u s' ↔
      m.Dead d ∧ s' = s ∨ ¬ m.Dead d ∧
        s' = { s with page := spill s.page d (s.disk d (2 * k), s.disk d (2 * k + 1)) } := by
  have hdisk : (1 : ℤ) ≤ (d : ℤ) ∧ (d : ℤ) ≤ cfg.disks := by omega
  rw [cacheDisk, ((returns_dead_disk h₁ h₂).2 ⟨rfl, m, hm, rfl⟩).ifFalse_iff]
  by_cases hd : m.Dead d
  · simp [hd]
  · obtain ⟨hk, hfit⟩ := hload hd
    have hslot : (0 : ℤ) ≤ d - 1 ∧ (d : ℤ) - 1 < cfg.disks ∧
        (((d : ℤ) - 1).toNat + 1) * blocksize + bsize ≤ pgsize := by
      simp only [blocksize, bsize, pgsize] at hfit ⊢
      omega
    rw [sub_add_cancel, (returns_readBlock.2 ⟨hdisk, hk, rfl, rfl⟩).bind_iff, returns_loadSlot,
      and_iff_right hslot, toNat_sub_one_add_one h₁, Int.toNat_natCast]
    simp [hd, spill]

/-- The loop of `cache` leaves the first half of its block in the slot of every disk that is not
dead, the second half of the last one behind its slot, and does not touch a sector that no transfer
reaches. -/
theorem cacheLoop_returns (hm : s.raidMetadata = some m) {n : ℕ} (hn : n ≤ cfg.disks)
    (hload : ∀ d, 1 ≤ d → d ≤ n → ¬ m.Dead d → Loadable cfg k d) :
    ∃ page, Returns (forRange (fun i => cacheDisk cfg k (i - 1)) 1 n) s () { s with page := page } ∧
      (∀ d, 1 ≤ d → d ≤ n → ¬ m.Dead d → page d = s.disk d (2 * k)) ∧
      (1 ≤ n → ¬ m.Dead n → page (n + 1) = s.disk n (2 * k + 1)) ∧
      ∀ j, (∀ d, 1 ≤ d → d ≤ n → ¬ m.Dead d → j ≠ d ∧ j ≠ d + 1) → page j = s.page j := by
  let I : ℕ → Machine → Prop := fun i s₁ => ∃ page, s₁ = { s with page := page } ∧
    (∀ d, 1 ≤ d → d < i → ¬ m.Dead d → page d = s.disk d (2 * k)) ∧
    (∀ d, 1 ≤ d → i = d + 1 → ¬ m.Dead d → page i = s.disk d (2 * k + 1)) ∧
    ∀ j, (∀ d, 1 ≤ d → d ≤ n → ¬ m.Dead d → j ≠ d ∧ j ≠ d + 1) → page j = s.page j
  have hround : ∀ i s₁, 1 ≤ i → i < 1 + n → I i s₁ →
      ∃ s₂, Returns (cacheDisk cfg k (i - 1)) s₁ () s₂ ∧ I (i + 1) s₂ := by
    rintro i s₁ h₁ h₂ ⟨page, rfl, hpage, -, hframe⟩
    have hm₁ : Machine.raidMetadata { s with page := page } = some m := hm
    have hi₂ : i ≤ cfg.disks := by omega
    by_cases hi : m.Dead i
    · refine ⟨_, (returns_cacheDisk hm₁ h₁ hi₂ (hload i h₁ (by omega))).2 (.inl ⟨hi, rfl⟩), page,
        rfl, ?_, ?_, hframe⟩
      · intro d hd₁ hd₂ hd
        have hdi : d ≠ i := fun h => hd (h ▸ hi)
        exact hpage d hd₁ (by omega) hd
      · intro d _ hdi hd
        exact absurd (Nat.succ.inj hdi ▸ hi) hd
    · refine ⟨_, (returns_cacheDisk hm₁ h₁ hi₂ (hload i h₁ (by omega))).2 (.inr ⟨hi, rfl⟩), _, rfl,
        ?_, ?_, ?_⟩
      · intro d hd₁ hd₂ hd
        by_cases hdi : d = i
        · rw [hdi, spill_self]
        · rw [spill_of_ne hdi (by omega)]
          exact hpage d hd₁ (by omega) hd
      · intro d _ hdi _
        rw [Nat.succ.inj hdi, spill_succ]
      · intro j hj
        obtain ⟨hne, hne'⟩ := hj i h₁ (by omega) hi
        rw [spill_of_ne hne hne']
        exact hframe j hj
  obtain ⟨s', hr, page, rfl, hpage, hlast, hframe⟩ := forRange_returns I hround
    ⟨s.page, rfl, fun d h₁ h₂ _ => by omega, fun d h₁ h₂ _ => by omega, fun _ _ => rfl⟩
  refine ⟨page, hr, fun d h₁ h₂ => hpage d h₁ (by omega), fun h₁ hd => ?_, hframe⟩
  rw [Nat.add_comm n, hlast n h₁ (Nat.add_comm 1 n) hd]

/-- The metadata after stripe `k` with parity disk `p` was loaded. -/
def cachedMeta (m : Raid) (k p : ℕ) : Raid :=
  { m with stripe := k, parityCached := p - 1, parityDisk := p - 1 }

/-- **Loading a stripe.**  Every slot gets the first half of the block of its disk, unless the disk
is dead or comes right after the parity disk; that slot gets the second half of the parity block,
and the sector behind the slots that of the last disk.  A sector that no transfer reaches is left
alone. -/
theorem cache_returns (hm : s.raidMetadata = some m) (hn : m.numOfDisks ≤ cfg.disks) {p : ℕ}
    (hp₁ : 1 ≤ p) (hp₂ : p ≤ cfg.disks)
    (hload : ∀ d, 1 ≤ d → d ≤ m.numOfDisks ∨ d = p → ¬ m.Dead d → Loadable cfg k d) :
    ∃ page, Returns (cache cfg k (p - 1)) s ()
        { s with raidMetadata := some (cachedMeta m k p), page := page } ∧
      (∀ d, 1 ≤ d → d ≤ m.numOfDisks ∨ d = p → ¬ m.Dead d → (d = p + 1 → m.Dead p) →
        page d = s.disk d (2 * k)) ∧
      (∀ d, 1 ≤ d → d = p ∨ d = m.numOfDisks ∧ p ≤ d → ¬ m.Dead d →
        page (d + 1) = s.disk d (2 * k + 1)) ∧
      ∀ j, (∀ d, 1 ≤ d → d ≤ m.numOfDisks ∨ d = p → ¬ m.Dead d → j ≠ d ∧ j ≠ d + 1) →
        page j = s.page j := by
  let m₁ : Raid := { m with stripe := k }
  obtain ⟨page, hloop, hpage, hlast, hframe⟩ := cacheLoop_returns (m := m₁)
    (s := s.withMeta m₁) rfl hn fun d h₁ h₂ => hload d h₁ (.inl h₂)
  let s₁ : Machine := { s with raidMetadata := some (cachedMeta m k p), page := page }
  have hm₁ : s₁.raidMetadata = some (cachedMeta m k p) := rfl
  have hcache : ∀ s', Returns (cache cfg k (p - 1)) s () s' ↔
      m.Dead p ∧ s' = s₁ ∨ ¬ m.Dead p ∧
        s' = { s₁ with page := spill page p (s.disk p (2 * k), s.disk p (2 * k + 1)) } := by
    intro s'
    rw [cache, (setMetadata_returns hm).bind_iff,
      (metadata_returns rfl).bind_iff, hloop.bind_iff,
      ((returns_setMetadata (u := ())).2 ⟨m₁, rfl, rfl⟩).bind_iff]
    exact returns_cacheDisk hm₁ hp₁ hp₂ (hload p hp₁ (.inr rfl))
  by_cases hp : m.Dead p
  · refine ⟨page, (hcache _).2 (.inl ⟨hp, rfl⟩), ?_, ?_, ?_⟩
    · intro d h₁ h₂ hd _
      have hdp : d ≠ p := fun h => hd (h ▸ hp)
      exact hpage d h₁ (by omega) hd
    · rintro d h₁ (rfl | ⟨rfl, -⟩) hd
      · exact absurd hp hd
      · exact hlast h₁ hd
    · intro j hj
      exact hframe j fun d h₁ h₂ hd => hj d h₁ (.inl h₂) hd
  · refine ⟨_, (hcache _).2 (.inr ⟨hp, rfl⟩), ?_, ?_, ?_⟩
    · intro d h₁ h₂ hd hdp
      by_cases hd' : d = p
      · rw [hd', spill_self]
      · rw [spill_of_ne hd' fun h => hp (hdp h)]
        exact hpage d h₁ (by omega) hd
    · intro d h₁ h₂ hd
      by_cases hd' : d = p
      · rw [hd', spill_succ]
      · obtain ⟨rfl, hle⟩ := h₂.resolve_left hd'
        rw [spill_of_ne (by omega) (by omega)]
        exact hlast h₁ hd
    · intro j hj
      obtain ⟨hne, hne'⟩ := hj p hp₁ (.inr rfl) hp
      rw [spill_of_ne hne hne']
      exact hframe j fun d h₁ h₂ hd => hj d h₁ (.inl h₂) hd

/-- A disk that is not dead can only be loaded from if the block lies on it and the transfer into
the slot stays in the page. -/
theorem loads_of_cacheDisk (hm : s.raidMetadata = some m) (h₁ : 1 ≤ d) (h₂ : d ≤ cfg.disks)
    (hd : ¬ m.Dead d) {u : Unit} (hr : Returns (cacheDisk cfg k (d - 1)) s u s') :
    Loadable cfg k d := by
  have htest : Returns (dead cfg (d - 1)) s false s :=
    (returns_dead_disk h₁ h₂).2 ⟨rfl, m, hm, by simp [hd]⟩
  rw [cacheDisk] at hr
  rcases htest.ifFalse_iff.1 hr with ⟨h, -⟩ | ⟨-, hr⟩
  · cases h
  · obtain ⟨b, s₁, hread, hload⟩ := returns_bind.1 hr
    obtain ⟨-, hk, -⟩ := returns_readBlock.1 hread
    obtain ⟨⟨-, -, hfit⟩, -⟩ := returns_loadSlot.1 hload
    rw [toNat_sub_one_add_one h₁] at hfit
    refine ⟨hk, ?_⟩
    simp only [blocksize, bsize, pgsize] at hfit ⊢
    omega

/-- The same for every disk that loading a stripe reads from. -/
theorem loads_of_cache (hm : s.raidMetadata = some m) (h₁ : 1 ≤ d) (h₂ : d ≤ cfg.disks) {p : ℕ}
    (hdp : d ≤ m.numOfDisks ∨ d = p) (hd : ¬ m.Dead d) {u : Unit}
    (hr : Returns (cache cfg k (p - 1)) s u s') : Loadable cfg k d := by
  let m₁ : Raid := { m with stripe := k }
  rw [cache, (setMetadata_returns hm).bind_iff, (metadata_returns rfl).bind_iff, returns_bind] at hr
  obtain ⟨_, s₁, hloop, hrest⟩ := hr
  have hkeep : ∀ i s s', s.raidMetadata = some m₁ →
      Returns (cacheDisk cfg k ((i : ℕ) - 1)) s () s' → s'.raidMetadata = some m₁ := by
    intro i s s' hm hr
    rw [dataFrame_raidMetadata.cacheDisk _ _ _ hr, hm]
  rcases hdp with hle | rfl
  · obtain ⟨s₂, s₃, hm₂, hr⟩ :=
      forRange_round hkeep rfl hloop h₁ (show d < 1 + m.numOfDisks by omega)
    exact loads_of_cacheDisk hm₂ h₁ h₂ hd hr
  · have hm₁ : s₁.raidMetadata = some m₁ :=
      forRange_inv (fun _ s => s.raidMetadata = some m₁) (fun i s s' _ _ => hkeep i s s') rfl hloop
    rw [(setMetadata_returns hm₁).bind_iff] at hrest
    exact loads_of_cacheDisk (m := { m₁ with parityCached := d - 1, parityDisk := d - 1 }) rfl h₁ h₂
      hd hrest

/-! ### Rebuilding a slot -/

/-- The inner loop of `raid_tocache_recovery` adds up the entries of a list other than `d`. -/
theorem foldl_recover (d : ℕ) (l : List ℕ) (c : ℕ → Byte) :
    l.foldl (fun (c : ℕ → Byte) j => if d = j then c else update c d (c d ^^^ c j)) c =
      update c d (c d + ((l.filter (· ≠ d)).map c).sum) := by
  induction l generalizing c with
  | nil => simp
  | cons j l ih =>
    rw [List.foldl_cons, ih]
    by_cases hj : d = j
    · simp [hj]
    · -- the entries that are still to come are not those that the round has changed
      have hrest : (l.filter (· ≠ d)).map (update c d (c d ^^^ c j)) =
          (l.filter (· ≠ d)).map c := by
        refine List.map_congr_left fun e he => ?_
        have hed : e ≠ d := by simpa using (List.mem_filter.1 he).2
        rw [update_of_ne hed]
      rw [if_neg hj, hrest, update_idem, update_self, List.filter_cons_of_pos
        (by simpa using Ne.symm hj), List.map_cons, List.sum_cons, Bits.xor_eq_add, add_assoc]

theorem sum_erase_congr {G : Type*} [AddCommMonoid G] {n d : ℕ} {f g : ℕ → G}
    (h : ∀ e, 1 ≤ e → e ≤ n → e ≠ d → f e = g e) :
    ∑ e ∈ (Icc 1 n).erase d, f e = ∑ e ∈ (Icc 1 n).erase d, g e := by
  refine Finset.sum_congr rfl fun e he => ?_
  obtain ⟨hed, hmem⟩ := mem_erase.1 he
  obtain ⟨he₁, he₂⟩ := mem_Icc.1 hmem
  exact h e he₁ he₂ hed

theorem sum_range'_filter (d n : ℕ) (c : ℕ → Byte) :
    (((List.range' 1 n).filter (· ≠ d)).map c).sum = ∑ e ∈ (Icc 1 n).erase d, c e := by
  rw [← List.sum_toFinset c (List.Nodup.filter _ List.nodup_range')]
  refine Finset.sum_congr ?_ fun _ _ => rfl
  ext e
  simp only [List.mem_toFinset, List.mem_filter, List.mem_range'_1, mem_erase, mem_Icc,
    decide_eq_true_eq]
  omega

theorem recoverByte_none (d n : ℕ) (c : ℕ → Byte) :
    recoverByte d n none c = update c d (∑ e ∈ (Icc 1 n).erase d, c e) := by
  have hclear : ∑ e ∈ (Icc 1 n).erase d, update c d 0 e = ∑ e ∈ (Icc 1 n).erase d, c e :=
    Finset.sum_congr rfl fun e he => update_of_ne (ne_of_mem_erase he) _ _
  rw [recoverByte, foldl_recover, sum_range'_filter, hclear, update_self, zero_add, update_idem]

theorem recoverByte_some {d n : ℕ} (hd : d ≤ n) (c : ℕ → Byte) :
    recoverByte d n (some (n + 1)) c = update c d (∑ e ∈ (Icc 1 (n + 1)).erase d, c e) := by
  have hsplit : ∑ e ∈ (Icc 1 (n + 1)).erase d, c e =
      (∑ e ∈ (Icc 1 n).erase d, c e) + c (n + 1) := by
    have hins : Icc 1 (n + 1) = insert (n + 1) (Icc 1 n) := by
      ext e
      simp only [mem_Icc, mem_insert]
      omega
    rw [hins, Finset.erase_insert_of_ne (by omega), Finset.sum_insert (by simp), add_comm]
  have hadded := recoverByte_none d n c
  simp only [recoverByte] at hadded ⊢
  rw [hadded, update_self, update_of_ne (by omega), update_idem, Bits.xor_eq_add, hsplit]

/-- The type, and what the type says about the number of data disks and the parity disk. -/
def ParityLayout (cfg : Config) (m : Raid) : Prop :=
  m.type = .RAID4 ∧ m.numOfDisks + 1 = cfg.disks ∧ m.parityDisk = cfg.disks - 1 ∨
    m.type = .RAID5 ∧ m.numOfDisks = cfg.disks

/-- **Rebuilding a slot.**  The slot becomes the sum of the slots of the other disks. -/
theorem raidTocacheRecovery_returns (hfit : cfg.CacheFits) (hm : s.raidMetadata = some m)
    (hl : ParityLayout cfg m) (h₁ : 1 ≤ d) (h₂ : d ≤ m.numOfDisks) :
    Returns (raidTocacheRecovery cfg d) s () { s with
      page := update s.page d (∑ e ∈ (Icc 1 cfg.disks).erase d, s.page e) } := by
  have hslot : ∀ e : ℕ, 1 ≤ e → e ≤ cfg.disks →
      Returns (slotSector cfg (e - 1) blocksize) s e s := fun e => slotSector_returns hfit
  have hn : m.numOfDisks ≤ cfg.disks := by
    rcases hl with h | h <;> omega
  rw [raidTocacheRecovery, (metadata_returns hm).bind_iff,
    (hslot d h₁ (by omega)).bind_iff, (hslot m.numOfDisks (by omega) hn).bind_iff]
  rcases hl with ⟨ht, hnum, hp⟩ | ⟨ht, hnum⟩
  · have hpage : forBytes (fun _ => recoverByte d m.numOfDisks (some cfg.disks)) s.page =
        update s.page d (∑ e ∈ (Icc 1 cfg.disks).erase d, s.page e) := by
      funext j i
      simp only [forBytes, ← hnum, recoverByte_some h₂, update_apply]
      split <;> simp
    rw [if_pos ht, hp, (hslot cfg.disks (by omega) le_rfl).bind_iff, returns_modify, hpage]
  · have hpage : forBytes (fun _ => recoverByte d m.numOfDisks none) s.page =
        update s.page d (∑ e ∈ (Icc 1 cfg.disks).erase d, s.page e) := by
      funext j i
      simp only [forBytes, hnum, recoverByte_none, update_apply]
      split <;> simp
    rw [if_neg (by simp [ht]), returns_modify, hpage]

/-- The slots after the slot of disk `d` was rebuilt, in case the disk is dead. -/
def rebuiltPage (cfg : Config) (m : Raid) (page : ℕ → Sector) (d : ℕ) : ℕ → Sector :=
  if m.Dead d then update page d (∑ e ∈ (Icc 1 cfg.disks).erase d, page e) else page

theorem rebuiltPage_of_ne {page : ℕ → Sector} {e : ℕ} (h : e ≠ d) :
    rebuiltPage cfg m page d e = page e := by
  unfold rebuiltPage
  split <;> simp [h]

theorem rebuiltPage_dead {page : ℕ → Sector} (h : m.Dead d) :
    rebuiltPage cfg m page d d = ∑ e ∈ (Icc 1 cfg.disks).erase d, page e := by
  simp [rebuiltPage, h]

theorem rebuiltPage_live {page : ℕ → Sector} (h : ¬ m.Dead d) :
    rebuiltPage cfg m page d = page := by
  simp [rebuiltPage, h]

/-- Rebuilding a slot in case its disk is dead. -/
theorem rebuildSlot_returns (hfit : cfg.CacheFits) (hm : s.raidMetadata = some m)
    (hl : ParityLayout cfg m) (h₁ : 1 ≤ d) (h₂ : d ≤ m.numOfDisks) :
    Returns (ifTrue (dead cfg (d - 1)) (raidTocacheRecovery cfg d)) s ()
      { s with page := rebuiltPage cfg m s.page d } := by
  have hn : d ≤ cfg.disks := by
    rcases hl with h | h <;> omega
  rw [((returns_dead_disk h₁ hn).2 ⟨rfl, m, hm, rfl⟩).ifTrue_iff]
  by_cases hd : m.Dead d
  · refine .inl ⟨by simpa using hd, ?_⟩
    rw [rebuiltPage, if_pos hd]
    exact raidTocacheRecovery_returns hfit hm hl h₁ h₂
  · refine .inr ⟨by simpa using hd, ?_⟩
    rw [rebuiltPage_live hd]

/-! ### Writing a slot -/

/-- The slots after the slot of disk `d` was overwritten with `x` and the slot of the parity disk
`p` updated. -/
def updatedPage (page : ℕ → Sector) (p d : ℕ) (x : Sector) : ℕ → Sector :=
  update (update page d x) p (page p + page d + x)

section UpdatedPage

variable {page : ℕ → Sector} {p d e : ℕ} {x : Sector}

theorem updatedPage_parity : updatedPage page p d x p = page p + page d + x := by
  simp [updatedPage]

theorem updatedPage_data (hpd : d ≠ p) : updatedPage page p d x d = x := by
  simp [updatedPage, hpd]

theorem updatedPage_of_ne (hp : e ≠ p) (hd : e ≠ d) : updatedPage page p d x e = page e := by
  simp [updatedPage, hp, hd]

theorem forBytes_updateByte (hpd : d ≠ p) :
    forBytes (fun i => updateByte p d (x i)) page = updatedPage page p d x := by
  funext j i
  simp only [forBytes, updateByte, updatedPage, update_apply, Bits.xor_eq_add]
  split
  case isTrue h => simp [hpd.symm]
  case isFalse h => split <;> simp

end UpdatedPage

/-- The machine after the slot of disk `e` was written to block `k` of the disk, unless the disk is
dead. -/
def flush (m : Raid) (k e : ℕ) (s : Machine) : Machine :=
  if m.Dead e then s else s.setBlock e k (s.page e, s.page (e + 1))

section Flush

variable {e e' k' : ℕ}

@[simp] theorem flush_raidMetadata : (flush m k e s).raidMetadata = s.raidMetadata := by
  unfold flush
  split <;> rfl

@[simp] theorem flush_page : (flush m k e s).page = s.page := by
  unfold flush
  split <;> rfl

@[simp] theorem flush_super : (flush m k e s).super = s.super := by
  unfold flush
  split <;> rfl

@[simp] theorem flush_kmem : (flush m k e s).kmem = s.kmem := by
  unfold flush
  split <;> rfl

theorem flush_disk_fst : (flush m k e s).disk e' (2 * k') =
    if e' = e ∧ k' = k ∧ ¬ m.Dead e then s.page e else s.disk e' (2 * k') := by
  unfold flush
  by_cases hd : m.Dead e
  · simp [hd]
  · simp [hd, setBlock_disk_fst]

theorem flush_disk_snd : (flush m k e s).disk e' (2 * k' + 1) =
    if e' = e ∧ k' = k ∧ ¬ m.Dead e then s.page (e + 1) else s.disk e' (2 * k' + 1) := by
  unfold flush
  by_cases hd : m.Dead e
  · simp [hd]
  · simp [hd, setBlock_disk_snd]

end Flush

theorem syncDisk_returns (hfit : cfg.CacheFits) (hm : s.raidMetadata = some m) (hk : cfg.OnDisk k)
    (h₁ : 1 ≤ d) (h₂ : d ≤ cfg.disks) : Returns (syncDisk cfg k (d - 1)) s () (flush m k d s) := by
  have hdisk : (1 : ℤ) ≤ (d : ℤ) ∧ (d : ℤ) ≤ cfg.disks := by omega
  have hstore : Returns (storeSlot cfg (d - 1)) s (s.page d, s.page (d + 1)) s := by
    refine returns_storeSlot.2 ⟨slot_fits hfit h₁ h₂, rfl, ?_⟩
    rw [toNat_sub_one_add_one h₁]
  rw [syncDisk, ((returns_dead_disk h₁ h₂).2 ⟨rfl, m, hm, rfl⟩).ifFalse_iff, flush]
  by_cases hd : m.Dead d
  · simp [hd]
  · right
    rw [hstore.bind_iff, if_neg hd]
    refine ⟨by simp [hd], returns_writeBlock.2 ⟨?_, hk, ?_⟩⟩
    · rwa [sub_add_cancel]
    · simp

/-- The machine after `x` was written to the slot of disk `d`, with stripe `k` cached and parity
disk `p`: the two slots change, and the blocks of their disks follow. -/
def written (m : Raid) (k p d : ℕ) (s : Machine) (x : Sector) : Machine :=
  flush m k d (flush m k p { s with page := updatedPage s.page p d x })

section Written

variable {p e j : ℕ} {x : Sector}

@[simp] theorem written_raidMetadata : (written m k p d s x).raidMetadata = s.raidMetadata := by
  simp [written]

@[simp] theorem written_page : (written m k p d s x).page = updatedPage s.page p d x := by
  simp [written]

theorem written_disk_of_ne (h : j ≠ k) :
    (written m k p d s x).disk e (2 * j) = s.disk e (2 * j) := by
  simp [written, flush_disk_fst, h]

theorem written_disk_other (hp : e ≠ p) (hd : e ≠ d) :
    (written m k p d s x).disk e (2 * j) = s.disk e (2 * j) := by
  simp [written, flush_disk_fst, hp, hd]

theorem written_disk_data (hpd : d ≠ p) (hd : ¬ m.Dead d) :
    (written m k p d s x).disk d (2 * k) = x := by
  simp [written, flush_disk_fst, hd, updatedPage_data hpd]

theorem written_disk_parity (hpd : d ≠ p) (hp : ¬ m.Dead p) :
    (written m k p d s x).disk p (2 * k) = s.page p + s.page d + x := by
  simp [written, flush_disk_fst, hp, hpd.symm, updatedPage_parity]

theorem written_spill_of_ne (h : j ≠ k) :
    (written m k p d s x).disk e (2 * j + 1) = s.disk e (2 * j + 1) := by
  simp [written, flush_disk_snd, h]

theorem written_spill_parity (hpd : d ≠ p) (hp : ¬ m.Dead p) :
    (written m k p d s x).disk p (2 * k + 1) = updatedPage s.page p d x (p + 1) := by
  simp [written, flush_disk_snd, hp, hpd.symm]

end Written

theorem raidWriteUpdateparityCache_returns (hfit : cfg.CacheFits) (hm : s.raidMetadata = some m)
    (hk : cfg.OnDisk k) (hstripe : m.stripe = k) {p : ℕ} (hp : m.parityCached = p - 1) (hp₁ : 1 ≤ p)
    (hp₂ : p ≤ cfg.disks) (h₁ : 1 ≤ d) (h₂ : d ≤ cfg.disks) (hpd : d ≠ p) (x : Sector) :
    Returns (raidWriteUpdateparityCache cfg d x) s () (written m k p d s x) := by
  have hm₁ : Machine.raidMetadata { s with page := updatedPage s.page p d x } = some m := hm
  rw [raidWriteUpdateparityCache, (metadata_returns hm).bind_iff, hp,
    (slotSector_returns hfit hp₁ hp₂).bind_iff, (slotSector_returns hfit h₁ h₂).bind_iff,
    modify_returns.bind_iff, forBytes_updateByte hpd, hstripe,
    Int.toNat_natCast, (syncDisk_returns hfit hm₁ hk hp₁ hp₂).bind_iff]
  exact syncDisk_returns hfit (by simpa using hm) hk h₁ h₂

/-! ### Accesses -/

section Accesses

variable {q : ℤ} {buf : Block} {v : ℤ × Block} {s₁ s₂ : Machine} {m₁ m₂ : Raid}

/-- A read that hits the cache rebuilds the slot, if its disk is dead, and copies it out. -/
theorem readStripe_hit (hfit : cfg.CacheFits) (hm : s.raidMetadata = some m)
    (hl : ParityLayout cfg m) (hstripe : m.stripe = k) (h₁ : 1 ≤ d) (h₂ : d ≤ m.numOfDisks)
    (buf : Block) : Returns (readStripe cfg d k q buf) s (0, (rebuiltPage cfg m s.page d d, buf.2))
      { s with page := rebuiltPage cfg m s.page d } := by
  have hn : d ≤ cfg.disks := by
    rcases hl with h | h <;> omega
  rw [readStripe, (metadata_returns hm).bind_iff, if_pos hstripe,
    (rebuildSlot_returns hfit hm hl h₁ h₂).bind_iff, copyOut,
    (slotSector_returns hfit h₁ hn).bind_iff, get_returns.bind_iff, returns_pure]
  exact ⟨rfl, rfl⟩

/-- A read that misses the cache loads the stripe and goes on like a hit. -/
theorem returns_readStripe_miss (hm : s.raidMetadata = some m) (hstripe : m.stripe ≠ k)
    (hcache : Returns (cache cfg k q) s () s₁) (hm₁ : s₁.raidMetadata = some m₁)
    (hstripe₁ : m₁.stripe = k) :
    Returns (readStripe cfg d k q buf) s v s' ↔ Returns (readStripe cfg d k q buf) s₁ v s' := by
  rw [readStripe, (metadata_returns hm).bind_iff, if_neg hstripe, hcache.bind_iff,
    (metadata_returns hm₁).bind_iff, if_pos hstripe₁]

/-- A write that hits the cache goes straight to the update. -/
theorem writeStripe_hit (hfit : cfg.CacheFits) (hm : s.raidMetadata = some m) (hk : cfg.OnDisk k)
    (hstripe : m.stripe = k) {p : ℕ} (hp : m.parityCached = p - 1) (hp₁ : 1 ≤ p)
    (hp₂ : p ≤ cfg.disks) (h₁ : 1 ≤ d) (h₂ : d ≤ cfg.disks) (hpd : d ≠ p) (buf : Block) :
    Returns (writeStripe cfg d k q buf) s (0, buf) (written m k p d s buf.1) := by
  rw [writeStripe, (metadata_returns hm).bind_iff, if_pos hstripe,
    (raidWriteUpdateparityCache_returns hfit hm hk hstripe hp hp₁ hp₂ h₁ h₂ hpd buf.1).bind_iff,
    returns_pure]
  exact ⟨rfl, rfl⟩

/-- A write that misses the cache loads the stripe, rebuilds the slot, if its disk is dead, and goes
on like a hit. -/
theorem returns_writeStripe_miss (hm : s.raidMetadata = some m) (hstripe : m.stripe ≠ k)
    (hcache : Returns (cache cfg k q) s () s₁)
    (hrebuild : Returns (ifTrue (dead cfg (d - 1)) (raidTocacheRecovery cfg d)) s₁ () s₂)
    (hm₂ : s₂.raidMetadata = some m₂) (hstripe₂ : m₂.stripe = k) :
    Returns (writeStripe cfg d k q buf) s v s' ↔ Returns (writeStripe cfg d k q buf) s₂ v s' := by
  rw [writeStripe, (metadata_returns hm).bind_iff, if_neg hstripe, hcache.bind_iff,
    hrebuild.bind_iff, (metadata_returns hm₂).bind_iff, if_pos hstripe₂]

end Accesses

end RaidSystem
