/-
**Arrays that cannot be told apart: the calls.**

`RaidSystem/Alike.lean` relates machines whose arrays differ in ways that no later call can see.
Here the calls themselves are shown to respect that relation: from related machines a call gets
the same reply, or stops the kernel in both, and leaves related machines.

* `simulates_readRaid`, `simulates_writeRaid`, `simulates_infoRaid` — accesses;
* `simulates_failRoles`, `simulates_repairRoles` — changes of the role tables;
* `simulates_diskFailRaid`, `simulates_diskRepairedRaid` — failures and repairs;
* `simulates_exec` — **every call but `init_raid` and `destroy_raid` respects the relation**.
-/

import RaidSystem.Alike

set_option autoImplicit false

namespace RaidSystem

open Prog Function

variable {cfg : Config} {t : RaidType} {mem : (ℤ → ℤ) × (ℤ → ℤ)} {m m' : Raid} {s s' : Machine}

/-! ### Accesses -/

section Access

variable {b : ℕ} {buf : Block} (ht : ∀ v, t ≠ .other v)

include ht

theorem simulates_readFunction :
    Respects cfg t mem (readFunction cfg t b buf) := by
  rw [readFunction_eq]
  cases t with
  | RAID0 => exact simulates_readRaid0
  | RAID1 => exact simulates_readColumn rfl
  | RAID0_1 => exact simulates_readColumn rfl
  | RAID4 => exact simulates_raid4 (simulates_readStripe rfl)
  | RAID5 => exact simulates_raid5 (simulates_readStripe rfl)
  | other v => exact absurd rfl (ht v)

theorem simulates_writeFunction (hb : t = .RAID0 → b < capacity cfg cfg.disks) :
    Respects cfg t mem (writeFunction cfg t b buf) := by
  rw [writeFunction_eq]
  cases t with
  | RAID0 => exact simulates_writeRaid0 (hb rfl)
  | RAID1 => exact simulates_writeColumn rfl
  | RAID0_1 => exact simulates_writeColumn rfl
  | RAID4 => exact simulates_raid4 (simulates_writeStripe rfl)
  | RAID5 => exact simulates_raid5 (simulates_writeStripe rfl)
  | other v => exact absurd rfl (ht v)

end Access

/-- The guard of `read_raid` and `write_raid`, and what follows when it accepts. -/
theorem simulates_accessRaid {odd : ℕ} {x : ℤ} {data : Option Block}
    (h : ∀ m m' buf, Raid.Alike cfg t mem m m' → m.Accepts x →
      Respects cfg t mem
        (raidRw cfg (m.type.code * 2 % 2 ^ 32 + odd) x.toNat buf)) :
    Respects cfg t mem (accessRaid cfg odd x data) := by
  refine simulates_get.bind fun s s' hR => ?_
  obtain ⟨m, m', hm, hm', hmm⟩ := hR.metadata
  cases data with
  | none => simpa only [hm, hm'] using simulates_pure rfl
  | some buf =>
    have haccepts : m'.Accepts x ↔ m.Accepts x := by
      rw [Raid.Accepts, Raid.Accepts, hmm.raidInitialized.1, hmm.raidInitialized.2, hmm.maxBlocks]
    have htype : m'.type = m.type := hmm.type'.trans hmm.type.symm
    simp only [hm, hm', haccepts, htype]
    refine Simulates.ite (fun hx => ?_) fun _ => simulates_pure rfl
    exact (h m m' buf hmm hx).bindEq fun _ => simulates_pure rfl

theorem simulates_readRaid (ht : ∀ v, t ≠ .other v) {x : ℤ} {data : Option Block} :
    Respects cfg t mem (readRaid cfg x data) := by
  refine simulates_accessRaid fun m m' buf hmm _ => ?_
  rw [hmm.type, raidRw_read ht]
  exact simulates_emit.bindEq fun _ => simulates_readFunction ht

theorem simulates_writeRaid (ht : ∀ v, t ≠ .other v) {x : ℤ} {data : Option Block} :
    Respects cfg t mem (writeRaid cfg x data) := by
  refine simulates_accessRaid fun m m' buf hmm hx => ?_
  rw [hmm.type, raidRw_write ht]
  refine simulates_emit.bindEq fun _ => simulates_writeFunction ht fun h₀ => ?_
  have hmax := (hmm.tests h₀).maxBlocks
  have hlt := hx.2
  omega

theorem simulates_infoRaid :
    Respects cfg t mem (infoRaid cfg) := by
  have hfetch : Respects cfg t mem (fetch cfg) := by
    refine simulates_ready.bind ?_
    rintro _ _ ⟨rfl, rfl⟩
    exact simulates_pure rfl
  refine hfetch.bindEq fun _ => simulates_metadata.bind fun m m' hmm => ?_
  rw [hmm.raidInitialized.1, hmm.raidInitialized.2, hmm.maxBlocks, hmm.blockSize, hmm.numOfDisks]
  exact simulates_pure rfl

/-! ### Roles -/

section Roles

variable (ht : t.plain = false)

include ht

theorem not_cached_of_roles : t.cached = false := by
  cases t <;> simp_all [RaidType.cached, RaidType.plain]

/-- Setting the role tables and the reserve alike. -/
theorem Raid.Alike.setRoles (h : Raid.Alike cfg t mem m m') {data data' copy copy' : ℕ → ℤ}
    {r r' : ℤ} (hdata : ∀ i < cfg.disks / 2, data i = data' i ∧ cfg.IsEntry (data i))
    (hcopy : ∀ i < cfg.disks / 2, copy i = copy' i ∧ cfg.IsEntry (copy i)) (hrr : r = r')
    (hr : cfg.IsEntry r) :
    Raid.Alike cfg t mem { m with dataDisks := data, copyDisks := copy, reserveDisk := r }
      { m' with dataDisks := data', copyDisks := copy', reserveDisk := r' } :=
  { h with
    reserveDisk := hrr
    tests := by
      intro h₀
      simp [h₀, RaidType.plain] at ht
    roles := fun _ => ⟨(h.roles ht).numOfDisks, (h.roles ht).maxDeadDisks, hdata, hcopy, hr⟩
    cache := by
      intro hc
      rw [not_cached_of_roles ht] at hc
      cases hc }

omit ht in
theorem isEntry_update {e e' : ℕ → ℤ} {v : ℤ} {i : ℕ}
    (h : ∀ i < cfg.disks / 2, e i = e' i ∧ cfg.IsEntry (e i)) (hv : cfg.IsEntry v) :
    ∀ j < cfg.disks / 2, update e i v j = update e' i v j ∧
      cfg.IsEntry (update e i v j) := by
  intro j hj
  rcases eq_or_ne j i with rfl | hji
  · simpa using hv
  · simpa [hji] using h j hj

omit ht in
theorem locate_stripeCursor {n : ℕ} {w : ℤ} (h : Raid.locate n w = .stripeCursor) :
    w = Raid.reserveDiskPos n + 1 := by
  simp only [Raid.locate, ite_eq_iff, reduceCtorEq, and_false, false_or, or_false, and_true] at h
  omega

omit ht in
theorem locate_parityDisk {n : ℕ} {w : ℤ} (h : Raid.locate n w = .parityDisk) :
    w = Raid.reserveDiskPos n + 2 := by
  simp only [Raid.locate, ite_eq_iff, reduceCtorEq, and_false, false_or, or_false, and_true] at h
  omega

/-- A store to the role tables, or to the word behind them, which is the reserve. -/
theorem simulates_storeWord {w v : ℤ} (hw : w ≤ Raid.reserveDiskPos cfg.disks)
    (hv : cfg.IsEntry v) :
    Respects cfg t mem (storeWord cfg w v) := by
  refine simulates_metadata.bind fun m m' hmm => ?_
  have hroles := hmm.roles ht
  have hset : ∀ {f g : Raid}, Raid.Alike cfg t mem f g →
      Simulates (Machine.Alike cfg t mem) Eq
        (modify fun s => { s with raidMetadata := some f } : Kernel Unit)
        (modify fun s => { s with raidMetadata := some g }) := by
    intro f g hfg
    refine simulates_modify fun s s' hR => ?_
    exact ⟨⟨f, g, rfl, rfl, hfg⟩, hR.around, hR.disk, hR.page⟩
  unfold Raid.setWord
  cases hl : Raid.locate cfg.disks w with
  | dataDisks i =>
    exact hset (hmm.setRoles ht (isEntry_update hroles.dataDisks hv) hroles.copyDisks
      hmm.reserveDisk hroles.reserveDisk)
  | copyDisks i =>
    exact hset (hmm.setRoles ht hroles.dataDisks (isEntry_update hroles.copyDisks hv)
      hmm.reserveDisk hroles.reserveDisk)
  | reserveDisk => exact hset (hmm.setRoles ht hroles.dataDisks hroles.copyDisks rfl hv)
  | stripeCursor =>
    have := locate_stripeCursor hl
    omega
  | parityDisk =>
    have := locate_parityDisk hl
    omega
  | _ => exact simulates_fail

theorem simulates_setDataDisks {j v : ℤ} (hj : j < (cfg.disks / 2 : ℕ)) (hv : cfg.IsEntry v) :
    Respects cfg t mem (setDataDisks cfg j v) := by
  refine simulates_emit.bindEq fun _ => simulates_storeWord ht ?_ hv
  rw [Raid.dataDisksBase, Raid.reserveDiskPos]
  omega

theorem simulates_setCopyDisks {j v : ℤ} (hj : j ≤ (cfg.disks / 2 : ℕ)) (hv : cfg.IsEntry v) :
    Respects cfg t mem (setCopyDisks cfg j v) := by
  refine simulates_emit.bindEq fun _ => simulates_storeWord ht ?_ hv
  rw [Raid.copyDisksBase, Raid.reserveDiskPos]
  omega

theorem simulates_setReserveDisk {v : ℤ} (hv : cfg.IsEntry v) :
    Respects cfg t mem (setMetadata fun m => { m with reserveDisk := v }) := by
  refine simulates_setMetadata fun m m' hmm => ?_
  exact hmm.setRoles ht (hmm.roles ht).dataDisks (hmm.roles ht).copyDisks rfl hv

omit ht in
theorem simulates_findLast {entry : ℤ → Kernel ℤ} {v : ℤ} {i k : ℕ} {acc : ℤ}
    (h : ∀ j : ℕ, i ≤ j → j < i + k →
      Simulates (Machine.Alike cfg t mem) (fun x y => x = y ∧ cfg.IsEntry x) (entry j) (entry j)) :
    Simulates (Machine.Alike cfg t mem) (fun x y => x = y ∧ (x = acc ∨ i ≤ x ∧ x < i + k))
      (findLast entry v i k acc) (findLast entry v i k acc) := by
  induction k generalizing i acc with
  | zero => exact simulates_pure ⟨rfl, .inl rfl⟩
  | succ k ih =>
    refine (h i le_rfl (by omega)).bind ?_
    rintro w _ ⟨rfl, -⟩
    intro s s' x s₁ hR hr
    obtain ⟨y, t', hy, ⟨rfl, hx⟩, hR'⟩ := ih
      (fun j h₁ h₂ => h j (by omega) (by omega)) s s' x s₁ hR hr
    refine ⟨x, t', hy, ⟨rfl, ?_⟩, hR'⟩
    push_cast at hx ⊢
    split at hx <;> omega

omit ht in
theorem simulates_findHole {entry : ℤ → Kernel ℤ} {i k : ℕ}
    (h : ∀ j : ℕ, i ≤ j → j < i + k →
      Simulates (Machine.Alike cfg t mem) (fun x y => x = y ∧ cfg.IsEntry x) (entry j) (entry j)) :
    Simulates (Machine.Alike cfg t mem) (fun x y => x = y ∧ ∀ j ∈ x, j < i + k)
      (findHole entry i k) (findHole entry i k) := by
  induction k generalizing i with
  | zero => exact simulates_pure ⟨rfl, by simp⟩
  | succ k ih =>
    refine (h i le_rfl (by omega)).bind ?_
    rintro w _ ⟨rfl, -⟩
    refine Simulates.ite (fun _ => simulates_pure ⟨rfl, by simp⟩) fun _ => ?_
    rw [show i + (k + 1) = i + 1 + k by omega]
    exact ih fun j h₁ h₂ => h j (by omega) (by omega)

variable {x : ℤ}

theorem simulates_failWithReserve (hmm : Raid.Alike cfg t mem m m') (hx : 1 ≤ x) :
    Simulates (Machine.Alike cfg t mem) Eq (failWithReserve cfg x m)
      (failWithReserve cfg x m') := by
  have hroles := hmm.roles ht
  have hn := hroles.numOfDisks
  have hzero : cfg.IsEntry 0 := ⟨by omega, by omega⟩
  unfold failWithReserve
  rw [← hmm.numOfDisks, ← hmm.reserveDisk]
  refine Simulates.ite (fun hle => ?_) fun hgt => ?_
  · refine (simulates_copyDisks ht (by omega) (by omega)).bind ?_
    rintro c _ ⟨rfl, hc⟩
    refine (simulates_setDataDisks ht (by omega) hc).bindEq fun _ => ?_
    refine (simulates_setCopyDisks ht (by omega) hroles.reserveDisk).bindEq fun _ => ?_
    exact simulates_setReserveDisk ht hzero
  · refine (simulates_setCopyDisks ht (by omega) hroles.reserveDisk).bindEq fun _ => ?_
    exact simulates_setReserveDisk ht hzero

theorem simulates_failWithoutReserve (hmm : Raid.Alike cfg t mem m m') :
    Simulates (Machine.Alike cfg t mem) Eq (failWithoutReserve cfg x m)
      (failWithoutReserve cfg x m') := by
  have hn := (hmm.roles ht).numOfDisks
  have hnone : cfg.IsEntry (-1) := ⟨by omega, by omega⟩
  unfold failWithoutReserve
  rw [← hmm.numOfDisks]
  refine (simulates_findLast fun j _ hj => simulates_dataDisks ht (by omega) (by omega)).bind ?_
  rintro i _ ⟨rfl, hi⟩
  refine Simulates.ite (fun hne => ?_) fun _ => ?_
  · refine (simulates_copyDisks ht (by omega) (by omega)).bind ?_
    rintro c _ ⟨rfl, hc⟩
    refine (simulates_setDataDisks ht (by omega) hc).bindEq fun _ => ?_
    exact simulates_setCopyDisks ht (by omega) hnone
  · refine (simulates_findLast fun j _ hj => simulates_copyDisks ht (by omega) (by omega)).bind ?_
    rintro j _ ⟨rfl, hj⟩
    exact simulates_setCopyDisks ht (by omega) hnone

omit ht in
theorem simulates_failRoles (hx : 1 ≤ x) :
    Respects cfg t mem (failRoles cfg x) := by
  refine simulates_metadata.bind fun m m' hmm => ?_
  rw [hmm.type, hmm.type', ← hmm.reserveDisk]
  refine Simulates.ite (fun _ => simulates_pure rfl) fun ht => ?_
  have ht : t.plain = false := by simpa using ht
  refine Simulates.ite (fun _ => ?_) fun _ => ?_
  · exact simulates_failWithReserve ht hmm hx
  · exact simulates_failWithoutReserve ht hmm

omit ht in
theorem simulates_repairRoles (hx : cfg.IsEntry x) :
    Respects cfg t mem (repairRoles cfg x) := by
  refine simulates_metadata.bind fun m m' hmm => ?_
  rw [hmm.type, hmm.type', ← hmm.numOfDisks]
  refine Simulates.ite (fun _ => simulates_pure rfl) fun ht => ?_
  have ht : t.plain = false := by simpa using ht
  have hn := (hmm.roles ht).numOfDisks
  refine (simulates_findHole fun j _ hj => simulates_dataDisks ht (by omega) (by omega)).bind ?_
  rintro r _ ⟨rfl, hr⟩
  cases r with
  | some i =>
    have hi := hr i rfl
    exact simulates_setDataDisks ht (by omega) hx
  | none =>
    refine (simulates_findHole fun j _ hj => simulates_copyDisks ht (by omega) (by omega)).bind ?_
    rintro r _ ⟨rfl, hr⟩
    cases r with
    | some i =>
      have hi := hr i rfl
      exact simulates_setCopyDisks ht (by omega) hx
    | none => exact simulates_setReserveDisk ht hx

end Roles

/-! ### Failure and repair -/

theorem locate_numDeadDisks {n : ℕ} {w : ℤ} (h : Raid.locate n w = .numDeadDisks) : w = 5 := by
  simp only [Raid.locate, ite_eq_iff, reduceCtorEq, and_false, false_or, or_false, and_true] at h
  omega

theorem locate_diskState_lt {n i : ℕ} {w : ℤ} (h : Raid.locate n w = .diskState i) :
    w < Raid.dataDisksBase n := by
  simp only [Raid.locate, ite_eq_iff, reduceCtorEq, and_false, false_or, or_false,
    Raid.Word.diskState.injEq] at h
  omega

/-- The words behind the table of disk states do not show a change of it. -/
theorem word_mark {n : ℕ} {w : ℤ} {a : ℤ → ℤ} (hw : Raid.dataDisksBase n ≤ w) (f : ℕ → DState)
    (c : ℕ) :
    Raid.word n { m with diskState := f, numDeadDisks := c } a w = m.word n a w := by
  unfold Raid.word
  cases hl : Raid.locate n w with
  | numDeadDisks =>
    have := locate_numDeadDisks hl
    rw [Raid.dataDisksBase] at hw
    omega
  | diskState i =>
    have := locate_diskState_lt hl
    omega
  | _ => rfl

/-- Marking a disk and counting it alike. -/
theorem Raid.Alike.mark (h : Raid.Alike cfg t mem m m') (i : ℕ) (x : DState) (count : ℕ → ℕ) :
    Raid.Alike cfg t mem
      { m with diskState := update m.diskState i x, numDeadDisks := count m.numDeadDisks }
      { m' with
        diskState := update m'.diskState i x, numDeadDisks := count m'.numDeadDisks } :=
  { h with
    numDeadDisks := by rw [h.numDeadDisks]
    dead := by
      intro j hj
      rcases eq_or_ne j i with rfl | hji
      · simp
      · simpa [hji] using h.dead j hj
    tests := by
      intro h₀
      refine ⟨(h.tests h₀).numOfDisks, (h.tests h₀).maxBlocks, fun b hb hj => ?_⟩
      have hw : Raid.dataDisksBase cfg.disks ≤ Raid.diskStateBase + (b / cfg.disks : ℕ) := by
        rw [Raid.dataDisksBase, Raid.diskStateBase]
        omega
      rw [word_mark (m := m) hw, word_mark (m := m') hw]
      exact (h.tests h₀).word b hb hj
    roles := fun ht =>
      have hr := h.roles ht
      ⟨hr.numOfDisks, hr.maxDeadDisks, hr.dataDisks, hr.copyDisks, hr.reserveDisk⟩
    cache := fun ht =>
      have hc := h.cache ht
      ⟨hc.maxDeadDisks, hc.stripe, hc.parityCached, hc.parityDisk⟩ }

/-- The guard of `disk_fail_raid` and `disk_repaired_raid` on the disk number. -/
theorem simulates_guarded {x : ℤ} {α : Type} {refused : α} {body : Kernel α}
    (h : 1 ≤ x → x ≤ cfg.disks → Respects cfg t mem body) :
    Respects cfg t mem
      (do let r ← ready
          if !r ∨ x < 1 ∨ cfg.disks < x then pure refused else body) := by
  refine simulates_ready.bind ?_
  rintro _ _ ⟨rfl, rfl⟩
  refine Simulates.ite (fun _ => simulates_pure rfl) fun hx => h ?_ ?_
  all_goals simp at hx; omega

theorem simulates_diskFailRaid {x : ℤ} :
    Respects cfg t mem (diskFailRaid cfg x) := by
  refine simulates_guarded fun h₁ h₂ => ?_
  refine (simulates_dead (by omega) (by omega)).bindEq fun _ => Simulates.ite ?_ fun _ => ?_
  · exact fun _ => simulates_pure rfl
  refine (simulates_setMetadata fun m m' hmm => hmm.mark _ _ uintSucc).bindEq fun _ => ?_
  refine (simulates_failRoles h₁).bindEq fun _ => ?_
  exact simulates_writeback.bindEq fun _ => simulates_pure rfl

theorem simulates_diskRepairedRaid {x : ℤ} :
    Respects cfg t mem (diskRepairedRaid cfg x) := by
  refine simulates_guarded fun h₁ h₂ => ?_
  refine (simulates_dead (by omega) (by omega)).bindEq fun _ => Simulates.ite (fun _ => ?_) ?_
  · refine (simulates_setMetadata fun m m' hmm => hmm.mark _ _ uintPred).bindEq fun _ => ?_
    refine (simulates_repairRoles ⟨by omega, h₂⟩).bindEq fun _ => ?_
    exact simulates_writeback.bindEq fun _ => simulates_pure rfl
  · exact fun _ => simulates_pure rfl

/-! ### The calls -/

/-- The calls that a caller makes on an initialised array. -/
def Call.isUse : Call → Bool
  | .readRaid _ _ | .writeRaid _ _ | .infoRaid | .diskFailRaid _ | .diskRepairedRaid _ => true
  | _ => false

/-- **The calls respect the relation.** -/
theorem simulates_exec (ht : ∀ v, t ≠ .other v) {c : Call} (hc : c.isUse = true) :
    Respects cfg t mem (exec cfg c) := by
  cases c with
  | readRaid x data => exact (simulates_readRaid ht).bindEq fun _ => simulates_pure rfl
  | writeRaid x data => exact (simulates_writeRaid ht).bindEq fun _ => simulates_pure rfl
  | infoRaid => exact simulates_infoRaid.bindEq fun _ => simulates_pure rfl
  | diskFailRaid x => exact simulates_diskFailRaid.bindEq fun _ => simulates_pure rfl
  | diskRepairedRaid x => exact simulates_diskRepairedRaid.bindEq fun _ => simulates_pure rfl
  | _ => cases hc

end RaidSystem
