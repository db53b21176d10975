/-
**User memory: `kernel/vm.c`.**

The part of `kernel/vm.c` that finds the physical page of a user address, and the two functions that
move bytes between the kernel and user memory one page at a time.

A page table is a tree of three levels of 512 entries.  The entries of the upper levels are followed
when they are valid; those of the lowest level are 64-bit words that hold a physical page and the
flags.  Physical memory is a function from addresses to bytes.

* `PageTable`, `walk`, `walkaddr` — the tree, and the lookup of an address;
* `UserTable` — a page table whose user pages are pages of RAM, as the allocator gives them out;
* `physical` — the physical address of a user address;
* `copyout`, `copyin` — copying to and from user memory;
* `mappedLength`, `copyin_eq`, `copyout_eq` — how much of a range is copied;
* `copyout_of_contiguous`, `copyin_of_contiguous` — when the range is mapped to consecutive physical
  addresses, they are one move;
* `copyout_frame` — `copyout` changes no byte outside its range.
-/

import RaidSystem.Machine

set_option autoImplicit false

namespace RaidSystem

open Function

/-! ### Page tables -/

/-- `MAXVA`. -/
def maxva : ℕ := 2 ^ 38

/-- `KERNBASE`: the start of RAM. -/
def kernbase : ℕ := 0x80000000

/-- `PHYSTOP`: the end of RAM. -/
def phystop : ℕ := kernbase + 32 * 1024 * 1024

/-- A page-table entry: a 64-bit word. -/
abbrev Pte := ℕ

/-- `*pte & PTE_V`. -/
def Pte.valid (pte : Pte) : Bool := Nat.testBit pte 0

/-- `*pte & PTE_U`. -/
def Pte.user (pte : Pte) : Bool := Nat.testBit pte 4

/-- `PTE2PA(pte)`. -/
def pte2pa (pte : Pte) : ℕ := (pte >>> 10) <<< 12

/-- `PX(level, va)`: nine bits of the address. -/
def px (level va : ℕ) : Fin 512 := ⟨(va >>> (12 + 9 * level)) % 512, Nat.mod_lt _ (by decide)⟩

/-- Three levels of page-table pages; `none` is an entry that is not valid. -/
abbrev PageTable := Fin 512 → Option (Fin 512 → Option (Fin 512 → Pte))

/-- `*walk(pagetable, va, 0)`. -/
def walk (pagetable : PageTable) (va : ℕ) : Option Pte :=
  if maxva ≤ va then none
  else
    match pagetable (px 2 va) with
    | none => none
    | some level₁ =>
      match level₁ (px 1 va) with
      | none => none
      | some level₀ => some (level₀ (px 0 va))

def walkaddr (pagetable : PageTable) (va : ℕ) : ℕ :=
  if maxva ≤ va then 0
  else
    match walk pagetable va with
    | none => 0
    | some pte => if pte.valid = false then 0 else if pte.user = false then 0 else pte2pa pte

/-- The page of `va` is mapped and user-accessible. -/
def UserPage (pagetable : PageTable) (va : ℕ) : Prop :=
  ∃ pte, walk pagetable va = some pte ∧ pte.valid = true ∧ pte.user = true

/-- The page table of a process: its user pages are pages of RAM. -/
structure UserTable where
  pagetable : PageTable
  ram : ∀ va pte, walk pagetable va = some pte → pte.valid = true → pte.user = true →
    kernbase ≤ pte2pa pte ∧ pte2pa pte + pgsize ≤ phystop

/-- `OFFSET`. -/
def offset : ℕ := 2 ^ 12 - 1

/-- `walkaddr(pagetable, va) | (va & OFFSET)`. -/
def physical (pagetable : PageTable) (va : ℕ) : ℕ := walkaddr pagetable va ||| (va &&& offset)

/-- `PGROUNDDOWN(a)`. -/
def pgrounddown (a : ℕ) : ℕ := a - a % pgsize

section Lookup

variable {pagetable : PageTable} {va va' : ℕ}

theorem pte2pa_eq (pte : Pte) : pte2pa pte = pgsize * (pte / 2 ^ 10) := by
  rw [pte2pa, Nat.shiftLeft_eq, Nat.shiftRight_eq_div_pow, Nat.mul_comm]

section

variable (h : va / pgsize = va' / pgsize)

include h

theorem px_congr {level : ℕ} : px level va = px level va' := by
  have hdiv : ∀ x : ℕ, x >>> (12 + 9 * level) = x / pgsize / 2 ^ (9 * level) := by
    intro x
    rw [Nat.shiftRight_eq_div_pow, Nat.pow_add, Nat.div_div_eq_div_mul]
  simp only [px, hdiv, h]

theorem maxva_le_congr : maxva ≤ va ↔ maxva ≤ va' := by
  simp only [maxva, pgsize] at *
  omega

/-- The lookup depends on the page only. -/
theorem walk_congr : walk pagetable va = walk pagetable va' := by
  simp only [walk, maxva_le_congr h, px_congr h]

theorem walkaddr_congr :
    walkaddr pagetable va = walkaddr pagetable va' := by
  simp only [walkaddr, maxva_le_congr h, walk_congr h]

end

theorem walkaddr_cases (pagetable : PageTable) (va : ℕ) : walkaddr pagetable va = 0 ∨
    ∃ pte, walk pagetable va = some pte ∧ pte.valid = true ∧ pte.user = true ∧
      walkaddr pagetable va = pte2pa pte := by
  unfold walkaddr
  split
  · exact .inl rfl
  · cases hw : walk pagetable va with
    | none => exact .inl rfl
    | some pte =>
      cases hv : pte.valid with
      | false => simp [hv]
      | true =>
        cases hu : pte.user with
        | false => simp [hv, hu]
        | true => exact .inr ⟨pte, rfl, hv, hu, by simp [hv, hu]⟩

theorem walkaddr_of_walk {pte : Pte} (hw : walk pagetable va = some pte) (hv : pte.valid = true)
    (hu : pte.user = true) : walkaddr pagetable va = pte2pa pte := by
  have hlt : ¬ maxva ≤ va := by
    intro hle
    simp [walk, hle] at hw
  simp [walkaddr, hlt, hw, hv, hu]

theorem pgsize_dvd_walkaddr (pagetable : PageTable) (va : ℕ) : pgsize ∣ walkaddr pagetable va := by
  rcases walkaddr_cases pagetable va with h | ⟨pte, -, -, -, h⟩
  · exact h ▸ dvd_zero _
  · exact h ▸ pte2pa_eq pte ▸ Dvd.intro _ rfl

/-- The physical address is that of the page plus the offset in the page. -/
theorem physical_eq (pagetable : PageTable) (va : ℕ) :
    physical pagetable va = walkaddr pagetable va + va % pgsize := by
  obtain ⟨k, hk⟩ := pgsize_dvd_walkaddr pagetable va
  have hoff : va &&& offset = va % pgsize := Nat.and_two_pow_sub_one_eq_mod va 12
  have hlt : va % pgsize < 2 ^ 12 := Nat.mod_lt _ (by decide)
  rw [physical, hoff, hk]
  exact (Nat.two_pow_add_eq_or_of_lt hlt k).symm

end Lookup

section UserTable

variable (pt : UserTable) {va : ℕ}

theorem UserTable.walkaddr_ne_zero_iff :
    walkaddr pt.pagetable va ≠ 0 ↔ UserPage pt.pagetable va := by
  constructor
  · intro hne
    rcases walkaddr_cases pt.pagetable va with h | ⟨pte, hw, hv, hu, -⟩
    · exact absurd h hne
    · exact ⟨pte, hw, hv, hu⟩
  · rintro ⟨pte, hw, hv, hu⟩
    have hram := (pt.ram va pte hw hv hu).1
    rw [walkaddr_of_walk hw hv hu]
    simp only [kernbase] at hram
    omega

/-- A user page is a page of RAM. -/
theorem UserTable.walkaddr_ram (h : UserPage pt.pagetable va) :
    kernbase ≤ walkaddr pt.pagetable va ∧ walkaddr pt.pagetable va + pgsize ≤ phystop := by
  obtain ⟨pte, hw, hv, hu⟩ := h
  rw [walkaddr_of_walk hw hv hu]
  exact pt.ram va pte hw hv hu

end UserTable

/-! ### Copying -/

/-- `memmove(dst, src, n)` for bytes `src` that are not part of the memory. -/
def memmove (mem : ℕ → Byte) (dst : ℕ) (src : ℕ → Byte) (n : ℕ) : ℕ → Byte :=
  fun a => if dst ≤ a ∧ a < dst + n then src (a - dst) else mem a

/-- The number of bytes that one round of `copyout` and `copyin` moves. -/
def roundLength (va len : ℕ) : ℕ := min (pgsize - (va - pgrounddown va)) len

theorem roundLength_pos (va : ℕ) {len : ℕ} (h : len ≠ 0) : 0 < roundLength va len := by
  have := Nat.mod_lt va (show 0 < pgsize by decide)
  simp only [roundLength, pgrounddown, pgsize] at *
  omega

/-- `copyout(pagetable, dstva, src, len)`: the code, and the memory afterwards. -/
def copyout (pagetable : PageTable) (mem : ℕ → Byte) (dstva : ℕ) (src : ℕ → Byte) (len : ℕ) :
    ℤ × (ℕ → Byte) :=
  if _h : len = 0 then (0, mem)
  else
    let va0 := pgrounddown dstva
    let pa0 := walkaddr pagetable va0
    if pa0 = 0 then (-1, mem)
    else
      let n := roundLength dstva len
      copyout pagetable (memmove mem (pa0 + (dstva - va0)) src n) (va0 + pgsize)
        (fun i => src (i + n)) (len - n)
termination_by len
decreasing_by
  have := roundLength_pos dstva ‹¬ len = 0›
  omega

/-- `copyin(pagetable, dst, srcva, len)`: the code, and the bytes at `dst` afterwards. -/
def copyin (pagetable : PageTable) (mem dst : ℕ → Byte) (at₀ srcva len : ℕ) : ℤ × (ℕ → Byte) :=
  if _h : len = 0 then (0, dst)
  else
    let va0 := pgrounddown srcva
    let pa0 := walkaddr pagetable va0
    if pa0 = 0 then (-1, dst)
    else
      let n := roundLength srcva len
      copyin pagetable mem (memmove dst at₀ (fun i => mem (pa0 + (srcva - va0) + i)) n) (at₀ + n)
        (va0 + pgsize) (len - n)
termination_by len
decreasing_by
  have := roundLength_pos srcva ‹¬ len = 0›
  omega

section Copy

variable {pagetable : PageTable} {mem dst src : ℕ → Byte} {va len at₀ p : ℕ}

/-- The bytes of one round are in one page. -/
theorem physical_round {i : ℕ} (hi : i < roundLength va len) : physical pagetable (va + i) =
    walkaddr pagetable (pgrounddown va) + (va - pgrounddown va) + i := by
  have hmod := Nat.mod_lt va (show 0 < pgsize by decide)
  have hpage : (va + i) / pgsize = pgrounddown va / pgsize := by
    simp only [roundLength, pgrounddown, pgsize] at *
    omega
  rw [physical_eq, walkaddr_congr hpage]
  simp only [roundLength, pgrounddown, pgsize] at *
  omega

theorem roundLength_le (va len : ℕ) : roundLength va len ≤ len := Nat.min_le_right _ _

/-- After a round that is not the last, the next page begins. -/
theorem next_page (h : roundLength va len < len) :
    pgrounddown va + pgsize = va + roundLength va len := by
  have hmod := Nat.mod_lt va (show 0 < pgsize by decide)
  simp only [roundLength, pgrounddown, pgsize] at *
  omega

/-- The bytes of one round are in the page of its first byte. -/
theorem walkaddr_round {i : ℕ} (hi : i < roundLength va len) :
    walkaddr pagetable (va + i) = walkaddr pagetable (pgrounddown va) := by
  have hmod := Nat.mod_lt va (show 0 < pgsize by decide)
  refine walkaddr_congr ?_
  simp only [roundLength, pgrounddown, pgsize] at *
  omega

/-- The range without its first round. -/
theorem next_address {i : ℕ} (hi : i < len - roundLength va len) :
    pgrounddown va + pgsize + i = va + (roundLength va len + i) := by
  rw [next_page (show roundLength va len < len by omega), Nat.add_assoc]

/-- One round of `copyout`. -/
theorem copyout_round (hlen : len ≠ 0) (hpa : walkaddr pagetable (pgrounddown va) ≠ 0) :
    copyout pagetable mem va src len =
      copyout pagetable
        (memmove mem (walkaddr pagetable (pgrounddown va) + (va - pgrounddown va)) src
          (roundLength va len))
        (pgrounddown va + pgsize) (fun i => src (i + roundLength va len))
        (len - roundLength va len) := by
  rw [copyout, dif_neg hlen]
  exact if_neg hpa

theorem copyout_unmapped (hlen : len ≠ 0) (hpa : walkaddr pagetable (pgrounddown va) = 0) :
    copyout pagetable mem va src len = (-1, mem) := by
  rw [copyout, dif_neg hlen]
  exact if_pos hpa

theorem copyout_zero : copyout pagetable mem va src 0 = (0, mem) := by
  rw [copyout, dif_pos rfl]

/-- A move in two parts. -/
theorem memmove_append {n k : ℕ} : memmove (memmove mem p src n) (p + n) (fun i => src (i + n)) k =
    memmove mem p src (n + k) := by
  funext a
  simp only [memmove]
  split
  case isTrue h =>
    rw [if_pos (by omega), show a - (p + n) + n = a - p by omega]
  case isFalse h =>
    split
    case isTrue h' => rw [if_pos (by omega)]
    case isFalse h' => rw [if_neg (by omega)]

/-- The page of an address is mapped if the address is. -/
theorem walkaddr_pgrounddown (pagetable : PageTable) (va : ℕ) :
    walkaddr pagetable (pgrounddown va) = walkaddr pagetable va := by
  refine walkaddr_congr ?_
  simp only [pgrounddown, pgsize]
  omega

/-- One round of `copyin`. -/
theorem copyin_round (hlen : len ≠ 0) (hpa : walkaddr pagetable (pgrounddown va) ≠ 0) :
    copyin pagetable mem dst at₀ va len =
      copyin pagetable mem
        (memmove dst at₀ (fun i => mem (walkaddr pagetable (pgrounddown va) +
          (va - pgrounddown va) + i)) (roundLength va len))
        (at₀ + roundLength va len) (pgrounddown va + pgsize) (len - roundLength va len) := by
  rw [copyin, dif_neg hlen]
  exact if_neg hpa

theorem copyin_zero : copyin pagetable mem dst at₀ va 0 = (0, dst) := by
  rw [copyin, dif_pos rfl]

end Copy

/-! ### Ranges that are mapped in part -/

section MappedPart

variable {pagetable : PageTable} {mem dst : ℕ → Byte} {at₀ va len n m tot : ℕ}

/-- How many of the `n` bytes from `va` on come before the first one that is not mapped. -/
def mappedLength (pagetable : PageTable) (va : ℕ) : ℕ → ℕ
  | 0 => 0
  | n + 1 => if walkaddr pagetable va = 0 then 0 else mappedLength pagetable (va + 1) n + 1

/-- The bytes of user memory from `va` on. -/
def userBytes (pagetable : PageTable) (mem : ℕ → Byte) (va : ℕ) : ℕ → Byte :=
  fun i => mem (physical pagetable (va + i))

theorem mappedLength_le : mappedLength pagetable va n ≤ n := by
  induction n generalizing va with
  | zero => exact le_rfl
  | succ n ih =>
    rw [mappedLength]
    split
    · exact Nat.zero_le _
    · exact Nat.succ_le_succ ih

theorem mappedLength_of_unmapped (h : walkaddr pagetable va = 0) :
    mappedLength pagetable va n = 0 := by
  cases n with
  | zero => rfl
  | succ n => exact if_pos h

/-- The first `m` bytes are mapped. -/
theorem mappedLength_add (h : ∀ i < m, walkaddr pagetable (va + i) ≠ 0) :
    mappedLength pagetable va (m + n) = m + mappedLength pagetable (va + m) n := by
  induction m generalizing va with
  | zero => simp
  | succ m ih =>
    have hfirst : walkaddr pagetable va ≠ 0 := h 0 (by omega)
    have hrest : ∀ i < m, walkaddr pagetable (va + 1 + i) ≠ 0 := by
      intro i hi
      rw [Nat.add_assoc, Nat.add_comm 1]
      exact h (i + 1) (by omega)
    rw [Nat.succ_add, mappedLength, if_neg hfirst, ih hrest, Nat.add_assoc va, Nat.add_comm 1 m]
    omega

theorem walkaddr_of_lt_mappedLength {i : ℕ} (h : i < mappedLength pagetable va n) :
    walkaddr pagetable (va + i) ≠ 0 := by
  induction n generalizing va i with
  | zero => exact absurd h (Nat.not_lt_zero _)
  | succ n ih =>
    rw [mappedLength] at h
    split at h
    · exact absurd h (Nat.not_lt_zero _)
    next h0 =>
      cases i with
      | zero => exact h0
      | succ i =>
        rw [show va + (i + 1) = va + 1 + i by omega]
        exact ih (by omega)

/-- The mapped bytes of a shorter range. -/
theorem mappedLength_min :
    mappedLength pagetable va m = min m (mappedLength pagetable va (m + n)) := by
  induction m generalizing va with
  | zero => simp [mappedLength]
  | succ m ih =>
    rw [Nat.succ_add, mappedLength, mappedLength]
    split
    · rfl
    · rw [ih]
      omega

/-- The mapped bytes of a part of a range, where what comes before the part is mapped. -/
theorem mappedLength_part (htot : tot ≤ mappedLength pagetable va n) (hm : tot + m ≤ n) :
    mappedLength pagetable (va + tot) m = min m (mappedLength pagetable va n - tot) := by
  obtain ⟨k, rfl⟩ : ∃ k, n = tot + (m + k) := ⟨n - tot - m, by omega⟩
  have hmapped : ∀ i < tot, walkaddr pagetable (va + i) ≠ 0 :=
    fun i hi => walkaddr_of_lt_mappedLength (Nat.lt_of_lt_of_le hi htot)
  rw [mappedLength_add hmapped, Nat.add_sub_cancel_left]
  exact mappedLength_min

/-- A range whose first byte is not mapped. -/
theorem copyin_unmapped (hlen : len ≠ 0) (h : walkaddr pagetable va = 0) :
    copyin pagetable mem dst at₀ va len = (-1, dst) := by
  rw [copyin, dif_neg hlen]
  exact if_pos (by rwa [walkaddr_pgrounddown])

theorem memmove_congr {src src' : ℕ → Byte} (h : ∀ i < n, src i = src' i) :
    memmove mem at₀ src n = memmove mem at₀ src' n := by
  funext a
  simp only [memmove]
  split
  next ha => exact h _ (by omega)
  next => rfl

theorem memmove_zero {src : ℕ → Byte} : memmove mem at₀ src 0 = mem := by
  funext a
  exact if_neg (by omega)

/-- The mapped bytes of the first round, and of the others. -/
theorem mappedLength_round (hva : walkaddr pagetable va ≠ 0) :
    mappedLength pagetable va len = roundLength va len +
      mappedLength pagetable (pgrounddown va + pgsize) (len - roundLength va len) := by
  have hmapped : ∀ i < roundLength va len, walkaddr pagetable (va + i) ≠ 0 := by
    intro i hi
    rwa [walkaddr_round hi, walkaddr_pgrounddown]
  have hlength : mappedLength pagetable va (roundLength va len + (len - roundLength va len)) = _ :=
    mappedLength_add hmapped
  rw [Nat.add_sub_cancel' (roundLength_le va len)] at hlength
  rw [hlength]
  rcases Nat.eq_or_lt_of_le (roundLength_le va len) with hall | hmore
  · rw [hall, Nat.sub_self]
    rfl
  · rw [next_page hmore]

theorem mappedLength_eq_iff :
    mappedLength pagetable va n = n ↔ ∀ i < n, walkaddr pagetable (va + i) ≠ 0 :=
  ⟨fun h _ hi => walkaddr_of_lt_mappedLength (by rwa [h]), fun h => mappedLength_add (n := 0) h⟩

/-- **`copyin` copies the mapped bytes at the beginning of its range**, and fails if these are not
all. -/
theorem copyin_eq : copyin pagetable mem dst at₀ va len =
    (if mappedLength pagetable va len < len then -1 else 0,
      memmove dst at₀ (userBytes pagetable mem va) (mappedLength pagetable va len)) := by
  induction len using Nat.strong_induction_on generalizing dst va at₀ with
  | _ len ih =>
    rcases eq_or_ne len 0 with rfl | hlen
    · rw [copyin_zero, mappedLength, memmove_zero]
      rfl
    rcases eq_or_ne (walkaddr pagetable va) 0 with h0 | hva
    · rw [copyin_unmapped hlen h0, mappedLength_of_unmapped h0, if_pos (Nat.pos_of_ne_zero hlen),
        memmove_zero]
    have hpos := roundLength_pos va hlen
    have hle := roundLength_le va len
    rw [copyin_round hlen (by rwa [walkaddr_pgrounddown]), ih _ (by omega),
      mappedLength_round hva, ← memmove_append]
    refine Prod.ext (if_congr (by omega) rfl rfl) ?_
    have hfirst : memmove dst at₀ (fun i => mem (walkaddr pagetable (pgrounddown va) +
        (va - pgrounddown va) + i)) (roundLength va len) =
          memmove dst at₀ (userBytes pagetable mem va) (roundLength va len) := by
      refine memmove_congr fun i hi => ?_
      rw [userBytes, physical_round hi]
    dsimp only
    rw [hfirst]
    refine memmove_congr fun i hi => ?_
    rw [userBytes, userBytes, next_address (Nat.lt_of_lt_of_le hi mappedLength_le), Nat.add_comm i]

/-- Memory after the first `k` bytes of `src` were stored at the addresses from `va` on, one by
one. -/
def stored (pagetable : PageTable) (mem : ℕ → Byte) (va : ℕ) (src : ℕ → Byte) : ℕ → ℕ → Byte
  | 0 => mem
  | k + 1 => update (stored pagetable mem va src k) (physical pagetable (va + k)) (src k)

variable {src : ℕ → Byte} {k p : ℕ}

theorem stored_add : stored pagetable mem va src (m + k) =
    stored pagetable (stored pagetable mem va src m) (va + m) (fun i => src (i + m)) k := by
  induction k with
  | zero => rfl
  | succ k ih => rw [← Nat.add_assoc, stored, ih, stored, Nat.add_assoc va, Nat.add_comm k]

theorem memmove_succ :
    memmove mem p src (k + 1) = update (memmove mem p src k) (p + k) (src k) := by
  funext a
  simp only [memmove, update_apply]
  grind

/-- Bytes that are stored at consecutive physical addresses. -/
theorem stored_of_contiguous (h : ∀ i < k, physical pagetable (va + i) = p + i) :
    stored pagetable mem va src k = memmove mem p src k := by
  induction k with
  | zero => rw [memmove_zero, stored]
  | succ k ih => rw [stored, ih fun i hi => h i (by omega), h k (Nat.lt_succ_self k), memmove_succ]

/-- **`copyout` stores the bytes for the mapped addresses at the beginning of its range**, and fails
if these are not all. -/
theorem copyout_eq : copyout pagetable mem va src len =
    (if mappedLength pagetable va len < len then -1 else 0,
      stored pagetable mem va src (mappedLength pagetable va len)) := by
  induction len using Nat.strong_induction_on generalizing mem va src with
  | _ len ih =>
    rcases eq_or_ne len 0 with rfl | hlen
    · rw [copyout_zero]
      rfl
    rcases eq_or_ne (walkaddr pagetable va) 0 with h0 | hva
    · rw [copyout_unmapped hlen (by rwa [walkaddr_pgrounddown]), mappedLength_of_unmapped h0,
        if_pos (Nat.pos_of_ne_zero hlen), stored]
    have hpos := roundLength_pos va hlen
    have hle := roundLength_le va len
    rw [copyout_round hlen (by rwa [walkaddr_pgrounddown]), ih _ (by omega),
      mappedLength_round hva, stored_add]
    refine Prod.ext (if_congr (by omega) rfl rfl) ?_
    dsimp only
    rw [stored_of_contiguous fun i hi => physical_round hi]
    rcases Nat.eq_or_lt_of_le hle with hall | hmore
    · rw [hall, Nat.sub_self]
      rfl
    · rw [next_page hmore]

/-- A byte that is not stored. -/
theorem stored_frame {a : ℕ} (h : ∀ i < k, physical pagetable (va + i) ≠ a) :
    stored pagetable mem va src k a = mem a := by
  induction k with
  | zero => rfl
  | succ k ih =>
    rw [stored, update_of_ne (h k (Nat.lt_succ_self k)).symm, ih fun i hi => h i (by omega)]

/-- The last byte that is stored at an address stays. -/
theorem stored_last {i : ℕ} (hi : i < k)
    (h : ∀ j < k, i < j → physical pagetable (va + j) = physical pagetable (va + i) →
      src j = src i) :
    stored pagetable mem va src k (physical pagetable (va + i)) = src i := by
  induction k with
  | zero => omega
  | succ k ih =>
    rcases Nat.lt_or_eq_of_le (Nat.le_of_lt_succ hi) with hlt | rfl
    · rw [stored, update_apply, ih hlt fun j hj => h j (by omega)]
      split_ifs with heq
      · exact h k (Nat.lt_succ_self k) hlt heq.symm
      · rfl
    · rw [stored, update_self]

/-- **`copyout` changes no byte outside its range.** -/
theorem copyout_frame {a : ℕ} (h : ∀ i < len, physical pagetable (va + i) ≠ a) :
    (copyout pagetable mem va src len).2 a = mem a := by
  rw [copyout_eq]
  exact stored_frame fun i hi => h i (Nat.lt_of_lt_of_le hi mappedLength_le)

end MappedPart

/-! ### Single moves -/

section Moves

variable {pagetable : PageTable} {mem dst src : ℕ → Byte} {va len at₀ p : ℕ}

section

variable (hmap : ∀ i < len, walkaddr pagetable (va + i) ≠ 0)
  (h : ∀ i < len, physical pagetable (va + i) = p + i)

include hmap h

/-- A range that is mapped to consecutive physical addresses is written in one move. -/
theorem copyout_of_contiguous :
    copyout pagetable mem va src len = (0, memmove mem p src len) := by
  rw [copyout_eq, mappedLength_eq_iff.2 hmap, if_neg (Nat.lt_irrefl _), stored_of_contiguous h]

/-- A range that is mapped to consecutive physical addresses is fetched in one move. -/
theorem copyin_of_contiguous :
    copyin pagetable mem dst at₀ va len = (0, memmove dst at₀ (fun i => mem (p + i)) len) := by
  have hbytes : memmove dst at₀ (userBytes pagetable mem va) len =
      memmove dst at₀ (fun i => mem (p + i)) len := by
    refine memmove_congr fun i hi => ?_
    rw [userBytes, h i hi]
  rw [copyin_eq, mappedLength_eq_iff.2 hmap, if_neg (Nat.lt_irrefl _), hbytes]

end

theorem memmove_one : memmove mem p src 1 = update mem p (src 0) := by
  funext a
  rcases eq_or_ne a p with rfl | hne
  · simp [memmove]
  · rw [memmove, if_neg (by omega), update_of_ne hne]

/-- One byte to a mapped address. -/
theorem copyout_byte (h : walkaddr pagetable va ≠ 0) : copyout pagetable mem va src 1 =
    (0, update mem (physical pagetable va) (src 0)) := by
  rw [← memmove_one]
  refine copyout_of_contiguous ?_ ?_
  · intro i hi
    rwa [Nat.lt_one_iff.1 hi, Nat.add_zero]
  · intro i hi
    rw [Nat.lt_one_iff.1 hi, Nat.add_zero, Nat.add_zero]

theorem copyout_byte_unmapped (h : walkaddr pagetable va = 0) :
    copyout pagetable mem va src 1 = (-1, mem) :=
  copyout_unmapped Nat.one_ne_zero (by rwa [walkaddr_pgrounddown])

end Moves

end RaidSystem
