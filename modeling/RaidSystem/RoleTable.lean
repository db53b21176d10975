/-
**Tables of primaries and backups.**

A table with `h` rows, each with room for a primary and a backup, assigns members of a pool to
roles.  The members are numbers, and `-1` marks a role that nobody has.  `RoleTable h live data
copy` says that the table with primaries `data` and backups `copy` assigns exactly the members that
satisfy `live`, each to one role, and that a row without a primary has no backup either.

Nothing here is about a particular pool.

* `RoleTable` — the well-formed tables;
* `RoleTable.initial` — the table of the members `1` to `2 * h`;
* `RoleTable.row_unique` — a member has a role in one row only;
* `RoleTable.promote`, `RoleTable.dropBackup` — **losing a member**: its backup takes its place, or
  its place becomes empty;
* `RoleTable.fillPrimary`, `RoleTable.fillBackup` — **gaining a member**;
* `RoleTable.exists_hole_of_card` — a table with as many roles as there are members has a hole as
  long as some member is missing.
-/

import Mathlib.Algebra.Order.BigOperators.Group.Finset
import Mathlib.Data.Finset.Card
import Mathlib.Order.Interval.Finset.Nat

set_option autoImplicit false

/-- The table assigns each member that satisfies `live` to one role, and no one else. -/
structure RoleTable (h : ℕ) (live : ℕ → Prop) (data copy : ℕ → ℤ) : Prop where
  data_mem : ∀ i < h, data i = -1 ∨ ∃ d : ℕ, data i = d ∧ live d
  copy_mem : ∀ i < h, copy i = -1 ∨ ∃ d : ℕ, copy i = d ∧ live d
  data_inj : ∀ i < h, ∀ j < h, data i = data j → data i ≠ -1 → i = j
  copy_inj : ∀ i < h, ∀ j < h, copy i = copy j → copy i ≠ -1 → i = j
  disjoint : ∀ i < h, ∀ j < h, data i = copy j → data i = -1
  onto : ∀ d, live d → (∃ i < h, data i = d) ∨ ∃ i < h, copy i = d
  hole : ∀ i < h, data i = -1 → copy i = -1

namespace RoleTable

open Function

variable {h i d : ℕ} {live : ℕ → Prop} {data copy : ℕ → ℤ}

/-- The first half of the members are primaries, in order, and the others their backups. -/
theorem initial (hlive : ∀ d, live d ↔ 1 ≤ d ∧ d ≤ 2 * h) (hdata : ∀ i < h, data i = i + 1)
    (hcopy : ∀ i < h, copy i = i + 1 + h) : RoleTable h live data copy where
  data_mem i hi := .inr ⟨i + 1, by simp [hdata i hi], (hlive _).2 (by omega)⟩
  copy_mem i hi := .inr ⟨i + 1 + h, by simp [hcopy i hi], (hlive _).2 (by omega)⟩
  data_inj i hi j hj hij _ := by
    rw [hdata i hi, hdata j hj] at hij
    omega
  copy_inj i hi j hj hij _ := by
    rw [hcopy i hi, hcopy j hj] at hij
    omega
  disjoint i hi j hj hij := by
    rw [hdata i hi, hcopy j hj] at hij
    omega
  onto d hd := by
    obtain ⟨h₁, h₂⟩ := (hlive d).1 hd
    by_cases hle : d ≤ h
    · exact .inl ⟨d - 1, by omega, by rw [hdata _ (by omega)]; omega⟩
    · exact .inr ⟨d - 1 - h, by omega, by rw [hcopy _ (by omega)]; omega⟩
  hole i hi hhole := by
    rw [hdata i hi] at hhole
    omega

section

variable (ht : RoleTable h live data copy)

include ht

/-- Only the members that are assigned matter. -/
theorem congr {live' : ℕ → Prop} (hl : ∀ d, live d ↔ live' d) :
    RoleTable h live' data copy := by
  obtain rfl : live = live' := funext fun d => propext (hl d)
  exact ht

theorem live_of_data (hi : i < h) (hd : data i = d) : live d := by
  rcases ht.data_mem i hi with hhole | ⟨e, he, hl⟩
  · omega
  · rwa [show d = e by omega]

theorem live_of_copy (hi : i < h) (hd : copy i = d) : live d := by
  rcases ht.copy_mem i hi with hhole | ⟨e, he, hl⟩
  · omega
  · rwa [show d = e by omega]

/-- A member has a role in one row only. -/
theorem row_unique {j : ℕ} (hi : i < h) (hj : j < h) (hid : data i = d ∨ copy i = d)
    (hjd : data j = d ∨ copy j = d) : i = j := by
  rcases hid with hid | hid <;> rcases hjd with hjd | hjd
  · exact ht.data_inj i hi j hj (hid.trans hjd.symm) (by omega)
  · have := ht.disjoint i hi j hj (hid.trans hjd.symm)
    omega
  · have := ht.disjoint j hj i hi (hjd.trans hid.symm)
    omega
  · exact ht.copy_inj i hi j hj (hid.trans hjd.symm) (by omega)

end

/-! ### Losing a member -/

/-- An entry other than `d` stays a good one when `d` is lost. -/
theorem mem_erase {x : ℤ} (hx : x ≠ d) (hmem : x = -1 ∨ ∃ e : ℕ, x = e ∧ live e) :
    x = -1 ∨ ∃ e : ℕ, x = e ∧ live e ∧ e ≠ d := by
  rcases hmem with hhole | ⟨e, rfl, hl⟩
  · exact .inl hhole
  · exact .inr ⟨e, rfl, hl, by omega⟩

/-- The backup of row `i` becomes the primary, in place of `d`. -/
theorem promote (ht : RoleTable h live data copy) (hi : i < h) (hd : data i = d) :
    RoleTable h (fun e => live e ∧ e ≠ d) (update data i (copy i))
      (update copy i (-1)) := by
  have hother : ∀ j < h, j ≠ i → data j ≠ d ∧ copy j ≠ d := by
    intro j hj hji
    refine ⟨fun hjd => hji (ht.data_inj j hj i hi (hjd.trans hd.symm) (by omega)), fun hjd => ?_⟩
    have := ht.disjoint i hi j hj (hd.trans hjd.symm)
    omega
  have hcopy : copy i ≠ d := by
    intro hid
    have := ht.disjoint i hi i hi (hd.trans hid.symm)
    omega
  refine ⟨?_, ?_, ?_, ?_, ?_, ?_, ?_⟩
  · intro j hj
    by_cases hji : j = i
    · subst hji
      simpa using mem_erase hcopy (ht.copy_mem j hj)
    · simpa [hji] using mem_erase (hother j hj hji).1 (ht.data_mem j hj)
  · intro j hj
    by_cases hji : j = i
    · simp [hji]
    · simpa [hji] using mem_erase (hother j hj hji).2 (ht.copy_mem j hj)
  · intro j hj l hl hjl hne
    have h₁ := ht.data_inj j hj l hl
    have h₂ := ht.disjoint j hj i hi
    have h₃ := ht.disjoint l hl i hi
    grind
  · intro j hj l hl hjl hne
    have h₁ := ht.copy_inj j hj l hl
    grind
  · intro j hj l hl hjl
    have h₁ := ht.disjoint j hj l hl
    have h₂ := ht.copy_inj l hl i hi
    grind
  · rintro e ⟨hl, hed⟩
    have h₁ : (d : ℤ) ≠ e := by omega
    rcases ht.onto e hl with ⟨j, hj, hje⟩ | ⟨j, hj, hje⟩
    · exact .inl ⟨j, hj, by grind⟩
    · by_cases hji : j = i
      · subst hji
        exact .inl ⟨j, hj, by simpa using hje⟩
      · exact .inr ⟨j, hj, by simpa [hji] using hje⟩
  · intro j hj hhole
    by_cases hji : j = i
    · simp [hji]
    · simpa [hji] using ht.hole j hj (by simpa [hji] using hhole)

/-- Row `i` loses its backup `d`. -/
theorem dropBackup (ht : RoleTable h live data copy) (hi : i < h) (hd : copy i = d) :
    RoleTable h (fun e => live e ∧ e ≠ d) data (update copy i (-1)) := by
  have hdata : ∀ j < h, data j ≠ d := by
    intro j hj hjd
    have := ht.disjoint j hj i hi (hjd.trans hd.symm)
    omega
  have hcopy : ∀ j < h, j ≠ i → copy j ≠ d := fun j hj hji hjd =>
    hji (ht.copy_inj j hj i hi (hjd.trans hd.symm) (by omega))
  refine ⟨fun j hj => mem_erase (hdata j hj) (ht.data_mem j hj), ?_, ht.data_inj, ?_, ?_, ?_, ?_⟩
  · intro j hj
    by_cases hji : j = i
    · simp [hji]
    · simpa [hji] using mem_erase (hcopy j hj hji) (ht.copy_mem j hj)
  · intro j hj l hl hjl hne
    have h₁ := ht.copy_inj j hj l hl
    grind
  · intro j hj l hl hjl
    have h₁ := ht.disjoint j hj l hl
    grind
  · rintro e ⟨hl, hed⟩
    rcases ht.onto e hl with hj | ⟨j, hj, hje⟩
    · exact .inl hj
    · refine .inr ⟨j, hj, ?_⟩
      have hji : j ≠ i := by
        rintro rfl
        omega
      simpa [hji] using hje
  · intro j hj hhole
    by_cases hji : j = i
    · simp [hji]
    · simpa [hji] using ht.hole j hj hhole

/-! ### Gaining a member -/

theorem mem_insert {x : ℤ} (hmem : x = -1 ∨ ∃ e : ℕ, x = e ∧ live e) :
    x = -1 ∨ ∃ e : ℕ, x = e ∧ (live e ∨ e = d) := by
  rcases hmem with hhole | ⟨e, rfl, hl⟩
  · exact .inl hhole
  · exact .inr ⟨e, rfl, .inl hl⟩

section

variable (ht : RoleTable h live data copy)

include ht

/-- No entry names a member that is not assigned. -/
theorem ne_of_not_live (hd : ¬ live d) (hi : i < h) :
    data i ≠ d ∧ copy i ≠ d :=
  ⟨fun hid => hd (ht.live_of_data hi hid), fun hid => hd (ht.live_of_copy hi hid)⟩

/-- `d` becomes the primary of a row without one. -/
theorem fillPrimary (hd : ¬ live d) (hi : i < h) (hhole : data i = -1) :
    RoleTable h (fun e => live e ∨ e = d) (update data i d) copy := by
  have hfresh := fun j hj => ht.ne_of_not_live hd (i := j) hj
  refine ⟨?_, fun j hj => mem_insert (ht.copy_mem j hj), ?_, ht.copy_inj, ?_, ?_, ?_⟩
  · intro j hj
    by_cases hji : j = i
    · exact .inr ⟨d, by simp [hji], .inr rfl⟩
    · simpa [hji] using mem_insert (ht.data_mem j hj)
  · intro j hj l hl hjl hne
    have h₁ := ht.data_inj j hj l hl
    have h₂ := hfresh j hj
    have h₃ := hfresh l hl
    grind
  · intro j hj l hl hjl
    have h₁ := ht.disjoint j hj l hl
    have h₂ := hfresh l hl
    grind
  · rintro e (hl | rfl)
    · rcases ht.onto e hl with ⟨j, hj, hje⟩ | hj
      · refine .inl ⟨j, hj, ?_⟩
        have hji : j ≠ i := by
          rintro rfl
          omega
        simpa [hji] using hje
      · exact .inr hj
    · exact .inl ⟨i, hi, by simp⟩
  · intro j hj hjhole
    by_cases hji : j = i
    · subst hji
      exact ht.hole j hj hhole
    · exact ht.hole j hj (by simpa [hji] using hjhole)

/-- `d` becomes the backup of a row that has a primary only. -/
theorem fillBackup (hd : ¬ live d) (hi : i < h) (hdata : data i ≠ -1) (hhole : copy i = -1) :
    RoleTable h (fun e => live e ∨ e = d) data (update copy i d) := by
  have hfresh := fun j hj => ht.ne_of_not_live hd (i := j) hj
  refine ⟨fun j hj => mem_insert (ht.data_mem j hj), ?_, ht.data_inj, ?_, ?_, ?_, ?_⟩
  · intro j hj
    by_cases hji : j = i
    · exact .inr ⟨d, by simp [hji], .inr rfl⟩
    · simpa [hji] using mem_insert (ht.copy_mem j hj)
  · intro j hj l hl hjl hne
    have h₁ := ht.copy_inj j hj l hl
    have h₂ := hfresh j hj
    have h₃ := hfresh l hl
    grind
  · intro j hj l hl hjl
    have h₁ := ht.disjoint j hj l hl
    have h₂ := hfresh j hj
    grind
  · rintro e (hl | rfl)
    · rcases ht.onto e hl with hj | ⟨j, hj, hje⟩
      · exact .inl hj
      · refine .inr ⟨j, hj, ?_⟩
        have hji : j ≠ i := by
          rintro rfl
          omega
        simpa [hji] using hje
    · exact .inr ⟨i, hi, by simp⟩
  · intro j hj hjhole
    have hji : j ≠ i := by
      rintro rfl
      exact hdata hjhole
    simpa [hji] using ht.hole j hj hjhole

/-- With room for all members of a pool, a missing member leaves a hole. -/
theorem exists_hole_of_card {pool : Finset ℕ} (hcard : pool.card ≤ 2 * h)
    (hlive : ∀ e, live e → e ∈ pool) (hmem : d ∈ pool) (hd : ¬ live d) :
    ∃ i < h, copy i = -1 := by
  by_contra hfull
  push Not at hfull
  have hdata : ∀ i < h, data i ≠ -1 := fun i hi hhole => hfull i hi (ht.hole i hi hhole)
  -- then all `2 * h` roles are taken, by members other than `d`
  let role : ℕ → ℤ := fun r => if r < h then data r else copy (r - h)
  have hrole : ∀ r < 2 * h, ∃ e : ℕ, role r = e ∧ live e := by
    intro r hr
    by_cases hrh : r < h
    · simpa [role, hrh] using (ht.data_mem r hrh).resolve_left (hdata r hrh)
    · have hr' : r - h < h := by omega
      simpa [role, hrh] using (ht.copy_mem _ hr').resolve_left (hfull _ hr')
  have hmaps : ∀ r ∈ Finset.range (2 * h), (role r).toNat ∈ pool.erase d := by
    intro r hr
    obtain ⟨e, he, hl⟩ := hrole r (Finset.mem_range.1 hr)
    rw [he, Int.toNat_natCast, Finset.mem_erase]
    exact ⟨by rintro rfl; exact hd hl, hlive e hl⟩
  have hinj : Set.InjOn (fun r => (role r).toNat) (Finset.range (2 * h)) := by
    intro r hr r' hr' hrr
    have hr := Finset.mem_range.1 hr
    have hr' := Finset.mem_range.1 hr'
    obtain ⟨e, he, -⟩ := hrole r hr
    obtain ⟨e', he', -⟩ := hrole r' hr'
    have heq : role r = role r' := by simp only at hrr; omega
    by_cases hrh : r < h <;> by_cases hrh' : r' < h <;>
      simp only [role, hrh, hrh', if_true, if_false] at heq
    · exact ht.data_inj r hrh r' hrh' heq (hdata r hrh)
    · exact absurd (ht.disjoint r hrh _ (by omega) heq) (hdata r hrh)
    · exact absurd (ht.disjoint r' hrh' _ (by omega) heq.symm) (hdata r' hrh')
    · have := ht.copy_inj _ (by omega) _ (by omega) heq (hfull _ (by omega))
      omega
  have hle := Finset.card_le_card_of_injOn (fun r => (role r).toNat) hmaps hinj
  have hpos := Finset.card_pos.2 ⟨d, hmem⟩
  rw [Finset.card_range, Finset.card_erase_of_mem hmem] at hle
  omega

/-- With room for all members `1, …, 2 * h`, a missing member leaves a hole. -/
theorem exists_hole (hlive : ∀ e, live e → 1 ≤ e ∧ e ≤ 2 * h) (h₁ : 1 ≤ d) (h₂ : d ≤ 2 * h)
    (hd : ¬ live d) : ∃ i < h, copy i = -1 := by
  refine ht.exists_hole_of_card ?_ (fun e he => Finset.mem_Icc.2 (hlive e he))
    (Finset.mem_Icc.2 ⟨h₁, h₂⟩) hd
  rw [Nat.card_Icc]
  omega

end

end RoleTable
