/-
**`copyout` and the permissions of user pages.**

`copyout` translates the destination with `walkaddr`, page by page.  `walkaddr` looks at the bits
`PTE_V` and `PTE_U` of an entry, and not at `PTE_W`; so `copyout` writes to every page the user can
access, also to those that the user may only read, such as the text of a program (`flags2perm` of
`exec` leaves `PTE_W` out for it).  It stops at the first page that the user cannot access; what
comes after that page does not matter.

Main definitions:

* `WritablePage` — the page of an address is mapped valid, user-accessible and writable;
* `UserTable.Unshared` — no two user pages have one frame;
* `CopiesOut` — what a call of `copyout` should do;
* `PrefixWritable` — the mapped part at the beginning of a range is writable.

Main results:

* `copyout_permissions` — **`copyout` respects the permissions exactly if the mapped part of its
  range is writable**;
* `copyout_readonly` — it writes to a page that the user may only read.
-/

import RaidSystem.AddressSpace

set_option autoImplicit false

namespace RaidSystem

/-! ### Definitions -/

/-- `*pte & PTE_W`. -/
def Pte.writable (pte : Pte) : Bool := Nat.testBit pte 2

/-- The page of `va` is mapped valid, user-accessible and writable. -/
def WritablePage (pagetable : PageTable) (va : ℕ) : Prop :=
  ∃ pte, walk pagetable va = some pte ∧ pte.valid = true ∧ pte.user = true ∧ pte.writable = true

/-- No two user pages have one frame. -/
def UserTable.Unshared (pt : UserTable) : Prop :=
  ∀ va va', UserPage pt.pagetable va → UserPage pt.pagetable va' →
    walkaddr pt.pagetable va = walkaddr pt.pagetable va' → va / pgsize = va' / pgsize

/-- What `copyout(pagetable, dstva, src, len)` should do. -/
structure CopiesOut (pt : UserTable) (mem : ℕ → Byte) (dstva : ℕ) (src : ℕ → Byte) (len : ℕ) :
    Prop where
  /-- A byte of memory that has changed lies in a writable page of the range. -/
  permitted : ∀ a, (copyout pt.pagetable mem dstva src len).2 a ≠ mem a →
    ∃ i < len, WritablePage pt.pagetable (dstva + i) ∧ physical pt.pagetable (dstva + i) = a
  /-- The call succeeds exactly if all pages of the range are writable. -/
  code : (copyout pt.pagetable mem dstva src len).1 = 0 ↔
    ∀ i < len, WritablePage pt.pagetable (dstva + i)
  /-- If it succeeds, user memory changes at the addresses of the range, to the bytes of the
  source. -/
  exact : pt.Unshared → (copyout pt.pagetable mem dstva src len).1 = 0 →
    ∀ va, UserPage pt.pagetable va →
      (copyout pt.pagetable mem dstva src len).2 (physical pt.pagetable va) =
        if dstva ≤ va ∧ va < dstva + len then src (va - dstva) else mem (physical pt.pagetable va)

/-- Every byte that is mapped before the first one that is not shares its place with a writable byte
of the range; and if the whole range is mapped, all of it is writable. -/
def PrefixWritable (pt : UserTable) (dstva len : ℕ) : Prop :=
  (∀ i < mappedLength pt.pagetable dstva len, ∃ j < len, WritablePage pt.pagetable (dstva + j) ∧
      physical pt.pagetable (dstva + j) = physical pt.pagetable (dstva + i)) ∧
    (mappedLength pt.pagetable dstva len = len → ∀ i < len, WritablePage pt.pagetable (dstva + i))

/-! ### User page tables -/

section UserTable

variable {pt : UserTable} {va va' : ℕ}

theorem WritablePage.userPage {pagetable : PageTable} (h : WritablePage pagetable va) :
    UserPage pagetable va := by
  obtain ⟨pte, hw, hv, hu, -⟩ := h
  exact ⟨pte, hw, hv, hu⟩

/-- If no frame is shared, no two user addresses have one physical address. -/
theorem UserTable.Unshared.physical_inj (hpt : pt.Unshared) (h : UserPage pt.pagetable va)
    (h' : UserPage pt.pagetable va') (heq : physical pt.pagetable va = physical pt.pagetable va') :
    va = va' := by
  obtain ⟨k, hk⟩ := pgsize_dvd_walkaddr pt.pagetable va
  obtain ⟨k', hk'⟩ := pgsize_dvd_walkaddr pt.pagetable va'
  have hmod := Nat.mod_lt va (show 0 < pgsize by decide)
  have hmod' := Nat.mod_lt va' (show 0 < pgsize by decide)
  rw [physical_eq, physical_eq, hk, hk'] at heq
  -- the frames are multiples of the page size, so that the offsets agree
  have hframe : k = k' := by
    simp only [pgsize] at heq hmod hmod'
    omega
  have hpage := hpt va va' h h' (by rw [hk, hk', hframe])
  have hoff : va % pgsize = va' % pgsize := by
    rw [hframe] at heq
    omega
  rw [← Nat.div_add_mod va pgsize, ← Nat.div_add_mod va' pgsize, hpage, hoff]

/-- **The code of `copyout`.** -/
theorem copyout_code {mem src : ℕ → Byte} {len : ℕ} :
    (copyout pt.pagetable mem va src len).1 = 0 ↔ mappedLength pt.pagetable va len = len := by
  have hle : mappedLength pt.pagetable va len ≤ len := mappedLength_le
  rw [copyout_eq]
  split_ifs with hlt
  · exact iff_of_false (show (-1 : ℤ) ≠ 0 by decide) (by omega)
  · exact iff_of_true rfl (by omega)

/-- **`copyout` respects the permissions of pages**, whatever is in memory and in the source,
exactly if the mapped part at the beginning of its range is writable. -/
theorem copyout_permissions (pt : UserTable) (dstva len : ℕ) :
    (∀ mem src, CopiesOut pt mem dstva src len) ↔ PrefixWritable pt dstva len := by
  constructor
  · intro h
    refine ⟨fun i hi => ?_, fun hall => (h (fun _ => 0) (fun _ => 0)).code.1 (copyout_code.2 hall)⟩
    -- the byte changes if memory holds zeros and the source ones
    refine (h (fun _ => 0) (fun _ => Bits.ofNat 8 1)).permitted _ ?_
    rw [copyout_eq]
    dsimp only
    rw [stored_last hi fun _ _ _ _ => rfl]
    decide
  · rintro ⟨hplace, hall⟩ mem src
    refine ⟨fun a ha => ?_, ⟨fun hzero => hall (copyout_code.1 hzero), fun hw => ?_⟩, ?_⟩
    · obtain ⟨i, hi, rfl⟩ : ∃ i < mappedLength pt.pagetable dstva len,
          physical pt.pagetable (dstva + i) = a := by
        by_contra hnone
        rw [copyout_eq] at ha
        exact ha (stored_frame fun i hi heq => hnone ⟨i, hi, heq⟩)
      exact hplace i hi
    · exact copyout_code.2 (mappedLength_eq_iff.2 fun i hi =>
        pt.walkaddr_ne_zero_iff.2 (hw i hi).userPage)
    · intro hpt hzero va hva
      have hlen := copyout_code.1 hzero
      have huser : ∀ i < len, UserPage pt.pagetable (dstva + i) := fun i hi =>
        (hall hlen i hi).userPage
      by_cases hin : dstva ≤ va ∧ va < dstva + len
      · obtain ⟨i, rfl⟩ := Nat.exists_eq_add_of_le hin.1
        have hi : i < len := by omega
        rw [if_pos hin, Nat.add_sub_cancel_left, copyout_eq, hlen]
        refine stored_last hi fun j hj hlt heq => ?_
        have := hpt.physical_inj (huser j hj) (huser i hi) heq
        omega
      · rw [if_neg hin]
        refine copyout_frame fun i hi heq => hin ?_
        have := hpt.physical_inj (huser i hi) hva heq
        omega

end UserTable

/-- The entry of a page at the start of RAM with the given flags. -/
def firstPte (flags : ℕ) : Pte := 0x80000 <<< 10 + flags

/-- A page table that maps the first page only. -/
def firstPage (pte : Pte) : PageTable :=
  fun i => if i.val = 0 then some fun j => if j.val = 0 then some fun k =>
    if k.val = 0 then pte else 0 else none else none

theorem walk_firstPage {pte₀ pte : Pte} {va : ℕ} (hw : walk (firstPage pte₀) va = some pte) :
    pte = pte₀ ∨ pte = 0 := by
  unfold walk firstPage at hw
  grind

theorem firstPage_ram {pte₀ : Pte} (hram : kernbase ≤ pte2pa pte₀ ∧ pte2pa pte₀ + pgsize ≤ phystop)
    (va : ℕ) (pte : Pte) (hw : walk (firstPage pte₀) va = some pte) (hv : pte.valid = true) :
    kernbase ≤ pte2pa pte ∧ pte2pa pte + pgsize ≤ phystop := by
  rcases walk_firstPage hw with rfl | rfl
  · exact hram
  · exact absurd hv (by decide)

/-- A process with one page of data: `PTE_V`, `PTE_R`, `PTE_W` and `PTE_U`. -/
def dataTable : UserTable where
  pagetable := firstPage (firstPte 23)
  ram := fun va pte hw hv _ => firstPage_ram (by decide) va pte hw hv

/-- Bytes for a page of data and for the addresses behind it. -/
theorem copyout_permissions_data : mappedLength dataTable.pagetable 4000 5000 = 96 ∧
    ∀ mem src, CopiesOut dataTable mem 4000 src 5000 := by
  have hlength : mappedLength dataTable.pagetable 4000 5000 = 96 := by decide +kernel
  refine ⟨hlength, (copyout_permissions dataTable 4000 5000).2 ⟨fun i hi => ?_, by simp [hlength]⟩⟩
  obtain ⟨pte, hw, hv, hu⟩ := dataTable.walkaddr_ne_zero_iff.1 (walkaddr_of_lt_mappedLength hi)
  refine ⟨i, Nat.lt_of_lt_of_le hi mappedLength_le, ⟨pte, hw, hv, hu, ?_⟩, rfl⟩
  rcases walk_firstPage hw with rfl | rfl
  · decide
  · exact absurd hv (by decide)

/-- A process with one page of text: `PTE_V`, `PTE_R`, `PTE_X` and `PTE_U`. -/
def textTable : UserTable where
  pagetable := firstPage (firstPte 27)
  ram := fun va pte hw hv _ => firstPage_ram (by decide) va pte hw hv

/-- **A byte is copied to the text of a program**: the call succeeds, although the page is not
writable. -/
theorem copyout_readonly : ¬ ∀ pt mem dstva src len, CopiesOut pt mem dstva src len := by
  intro hall
  have hcopy := hall textTable (fun _ => 0) 0 (fun _ => 0) 1
  have hwalk : walk textTable.pagetable 0 = some (firstPte 27) := by decide
  obtain ⟨pte, hw, -, -, hwritable⟩ := hcopy.code.1 (copyout_code.2 (by decide)) 0 Nat.one_pos
  obtain rfl := Option.mem_unique hwalk hw
  exact absurd hwritable (by decide)

end RaidSystem
