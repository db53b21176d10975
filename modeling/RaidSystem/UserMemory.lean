/-
**The memory of a process: `uvmalloc`, `uvmcopy` and the other functions of `kernel/vm.c`.**

A process has the pages `0, …, k - 1` for itself, and above them only the trapframe and the
trampoline.  `Image` says that a table is of this form and that its frames are owned by it.  Memory
is bounded, so `k` stays far below the number of pages that can be addressed (`Image.lt_userPages`);
this is why neither `walk` nor the loops of `uvmalloc` and `uvmcopy` leave the address space.

Allocation may fail in the middle of each function, with a different part of the table done.  In all
these cases the table is again of the form above, for the size that the caller goes on with.
`Changes` is what can be said across a call: the pages of others stay as they are.

* `uvmalloc_image`, `uvmdealloc_image` — growing and shrinking;
* `uvmcopy_image` — **copying the memory of the parent**, or undoing what was copied;
* `procPagetable_image`, `procFreepagetable_image` — **making and freeing a table**;
* `copyout_image`, `uvmclear_image` — writing to the user, and the guard page.
-/

import RaidSystem.PageOwners
import Mathlib.Data.Finset.Card
import Mathlib.Data.Finset.Range

set_option autoImplicit false

namespace RaidSystem.Vm

open Prog Function
open PageTree (page leaf InTree Separate set fill)
open PageTables (State link first pa2pte pteFlags isLeaf decode lookup Mapping)

/-! ### The functions -/

/-- A byte of user memory. -/
abbrev UserByte := BitVec 8

/-- `PGROUNDUP(sz)`. -/
def pgroundup (sz : ℕ) : ℕ := pgrounddown (sz + pgsize - 1)

/-- `TRAMPOLINE`. -/
def trampolineVa : ℕ := maxva - pgsize

/-- `TRAPFRAME`. -/
def trapframeVa : ℕ := trampolineVa - pgsize

def uvmdealloc (kend pagetable oldsz newsz : ℕ) : Kernel ℕ :=
  if oldsz ≤ newsz then pure oldsz
  else if pgroundup newsz < pgroundup oldsz then do
    uvmunmap kend pagetable (pgroundup newsz) ((pgroundup oldsz - pgroundup newsz) / pgsize) true
    pure newsz
  else pure newsz

/-- The loop of `uvmalloc`, with a bound on the number of rounds. -/
def uvmallocLoop (kend pagetable oldsz newsz xperm : ℕ) : ℕ → ℕ → Kernel ℕ
  | 0, _ => fail .looping
  | k + 1, a =>
    if a < newsz then do
      let mem ← kalloc
      if mem = 0 then do
        let _ ← uvmdealloc kend pagetable a oldsz
        pure 0
      else do
        clear mem
        let r ← mappages pagetable a pgsize mem (2 ||| 16 ||| xperm)
        if r ≠ 0 then do
          kfree kend mem
          let _ ← uvmdealloc kend pagetable a oldsz
          pure 0
        else uvmallocLoop kend pagetable oldsz newsz xperm k (a + pgsize)
    else pure newsz

def uvmalloc (kend pagetable oldsz newsz xperm : ℕ) : Kernel ℕ :=
  if newsz < oldsz then pure oldsz
  else uvmallocLoop kend pagetable (pgroundup oldsz) newsz xperm (newsz + 1) (pgroundup oldsz)

def uvmfree (kend pagetable sz : ℕ) : Kernel Unit := do
  guarded (0 < sz) (uvmunmap kend pagetable 0 (pgroundup sz / pgsize) true)
  freewalk kend 3 pagetable

/-- The label `err` of `uvmcopy`. -/
def uvmcopyErr (kend new i : ℕ) : Kernel ℤ := do
  uvmunmap kend new 0 (i / pgsize) true
  pure (-1)

/-- The loop of `uvmcopy`, with a bound on the number of rounds. -/
def uvmcopyLoop (kend old new sz : ℕ) : ℕ → ℕ → Kernel ℤ
  | 0, _ => fail .looping
  | k + 1, i =>
    if i < sz then do
      match ← walk old i false with
      | none => fail .uvmcopyPte
      | some (p, j) => do
        let s ← get
        let pte := s.mem p j
        if pte.valid = false then fail .uvmcopyPresent
        else do
          let mem ← kalloc
          if mem = 0 then uvmcopyErr kend new i
          else do
            modify fun s => { s with mem := update s.mem mem (s.mem (pte2pa pte)) }
            let r ← mappages new i pgsize mem (pteFlags pte)
            if r ≠ 0 then do
              kfree kend mem
              uvmcopyErr kend new i
            else uvmcopyLoop kend old new sz k (i + pgsize)
    else pure 0

def uvmcopy (kend old new sz : ℕ) : Kernel ℤ := uvmcopyLoop kend old new sz (sz + 1) 0

/-- `pte & ~PTE_U`. -/
def withoutUser (pte : Pte) : Pte := pte ^^^ (pte &&& 16)

def uvmclear (pagetable va : ℕ) : Kernel Unit := do
  match ← walk pagetable va false with
  | none => fail .uvmclear
  | some (p, i) => do
    let s ← get
    store p i (withoutUser (s.mem p i))

def walkaddr (pagetable va : ℕ) : Kernel ℕ :=
  if maxva ≤ va then pure 0
  else do
    match ← walk pagetable va false with
    | none => pure 0
    | some (p, i) => do
      let s ← get
      let pte := s.mem p i
      if pte.valid = false then pure 0
      else if pte.user = false then pure 0
      else pure (pte2pa pte)

/-- A page of memory after bytes were moved to an offset in it; words are little-endian. -/
def putBytes (words : Fin 512 → ℕ) (off : ℕ) (bytes : List UserByte) : Fin 512 → ℕ := fun i =>
  (List.range 8).foldr (fun k word =>
    (if off ≤ 8 * i.val + k then
      (bytes[8 * i.val + k - off]?).elim (words i / 256 ^ k % 256) (fun b => b.toNat)
    else words i / 256 ^ k % 256) + 256 * word) 0

/-- `memmove((void *)(pa + off), bytes, n)`, inside of one page. -/
def moveIn (pa off : ℕ) (bytes : List UserByte) : Kernel Unit :=
  modify fun s => { s with mem := update s.mem pa (putBytes (s.mem pa) off bytes) }

/-- The loop of `copyout`, with a bound on the number of rounds. -/
def copyoutLoop (pagetable : ℕ) : ℕ → ℕ → List UserByte → Kernel ℤ
  | 0, _, _ => fail .looping
  | k + 1, dstva, src =>
    if 0 < src.length then do
      let va0 := pgrounddown dstva
      let pa0 ← walkaddr pagetable va0
      if pa0 = 0 then pure (-1)
      else do
        let n := min (pgsize - (dstva - va0)) src.length
        moveIn pa0 (dstva - va0) (src.take n)
        copyoutLoop pagetable k (va0 + pgsize) (src.drop n)
    else pure 0

def copyout (pagetable dstva : ℕ) (src : List UserByte) : Kernel ℤ :=
  copyoutLoop pagetable (src.length + 1) dstva src

/-- `proc_pagetable(p)`, where `trapframe` is `p->trapframe`. -/
def procPagetable (kend trampoline trapframe : ℕ) : Kernel ℕ := do
  let pagetable ← uvmcreate
  if pagetable = 0 then pure 0
  else do
    let r ← mappages pagetable trampolineVa pgsize trampoline (2 ||| 8)
    if r < 0 then do
      uvmfree kend pagetable 0
      pure 0
    else do
      let r ← mappages pagetable trapframeVa pgsize trapframe (2 ||| 4)
      if r < 0 then do
        uvmunmap kend pagetable trampolineVa 1 false
        uvmfree kend pagetable 0
        pure 0
      else pure pagetable

def procFreepagetable (kend pagetable sz : ℕ) : Kernel Unit := do
  uvmunmap kend pagetable trampolineVa 1 false
  uvmunmap kend pagetable trapframeVa 1 false
  uvmfree kend pagetable sz

/-! ### What a call changes -/

/-- Between two states of a call: it keeps the pages of others as they are, takes none of them and
gives none away, and the pages that it holds are the same. -/
structure Changes (own own' : Owners) (s s' : State) : Prop where
  other : ∀ x, own' x = .other ↔ own x = .other
  held : ∀ x, own' x = .held ↔ own x = .held
  mem : ∀ x, own x = .other ∨ own x = .held → s'.mem x = s.mem x

/-- Nothing is in use for a table. -/
def Idle (own : Owners) : Prop := ∀ x, own x = .other ∨ own x = .free ∨ own x = .held

section Changes

variable {kend root p : ℕ} {own own' own'' : Owners} {s s' s'' : State} {m : Mapping}

theorem Changes.refl : Changes own own s s := ⟨fun _ => Iff.rfl, fun _ => Iff.rfl, fun _ _ => rfl⟩

theorem Changes.trans (h₁ : Changes own own' s s') (h₂ : Changes own' own'' s' s'') :
    Changes own own'' s s'' := by
  refine ⟨fun x => (h₂.other x).trans (h₁.other x), fun x => (h₂.held x).trans (h₁.held x),
    fun x hx => ?_⟩
  rw [h₂.mem x (hx.imp (h₁.other x).2 (h₁.held x).2), h₁.mem x hx]

theorem ne_table {o : Owner} (ho : o = .other ∨ o = .held) (P : TreePath (Fin 512)) :
    o ≠ .table P := by
  rcases ho with rfl | rfl <;> exact nofun

theorem ne_frame {o : Owner} (ho : o = .other ∨ o = .held) (v : ℕ) : o ≠ .frame v := by
  rcases ho with rfl | rfl <;> exact nofun

/-- Pages change hands that the call uses for its table, or that are free. -/
theorem Changes.of_used (hown : ∀ x, own' x = own x ∨
      (own' x ≠ .other ∧ own' x ≠ .held) ∧ own x ≠ .other ∧ own x ≠ .held)
    (hmem : ∀ x, own x = .other ∨ own x = .held → s'.mem x = s.mem x) : Changes own own' s s' := by
  refine ⟨fun x => ?_, fun x => ?_, hmem⟩
  · rcases hown x with heq | ⟨h', h⟩
    · rw [heq]
    · exact iff_of_false h'.1 h.1
  · rcases hown x with heq | ⟨h', h⟩
    · rw [heq]
    · exact iff_of_false h'.2 h.2

/-- The owners stay. -/
theorem Changes.of_mem (hmem : ∀ x, own x = .other ∨ own x = .held → s'.mem x = s.mem x) :
    Changes own own s s' := .of_used (fun _ => .inl rfl) hmem

theorem Linked.changes (h : Linked own own' s s') : Changes own own' s s' := by
  refine .of_used (fun x => (h.owners x).imp_right ?_) fun x hx => h.mem x ?_ (ne_table hx)
  · rintro ⟨hfree, P, hP⟩
    rw [hfree, hP]
    exact ⟨⟨nofun, nofun⟩, nofun, nofun⟩
  · rcases hx with hx | hx <;> rw [hx] <;> exact nofun

/-- A call that leaves nothing in use has given back what it took. -/
theorem Changes.eq_of_idle (h : Changes own own' s s') (hown : Idle own) (hown' : Idle own') :
    own' = own := by
  funext x
  rcases hown' x with hx | hx | hx
  · rw [hx, (h.other x).1 hx]
  · rcases hown x with hx' | hx' | hx'
    · rw [(h.other x).2 hx'] at hx
      cases hx
    · rw [hx, hx']
    · rw [(h.held x).2 hx'] at hx
      cases hx
  · rw [hx, (h.held x).1 hx]

/-- Pages of tables and frames are freed. -/
theorem Changes.of_freed (hown : ∀ x, own' x = own x ∨ (own' x = .free ∧
      ((∃ P, own x = .table P) ∨ ∃ v, own x = .frame v)))
    (hmem : ∀ x, (∀ P, own x ≠ .table P) → (∀ v, own x ≠ .frame v) → s'.mem x = s.mem x) :
    Changes own own' s s' := by
  refine .of_used (fun x => (hown x).imp_right ?_) fun x hx => hmem x (ne_table hx) (ne_frame hx)
  rintro ⟨hfree, ⟨P, hx⟩ | ⟨v, hx⟩⟩
  · rw [hfree, hx]
    exact ⟨⟨nofun, nofun⟩, nofun, nofun⟩
  · rw [hfree, hx]
    exact ⟨⟨nofun, nofun⟩, nofun, nofun⟩

theorem freeFrames_cases (own : Owners) (v n x : ℕ) :
    freeFrames own v n x = own x ∨ freeFrames own v n x = .free ∧ ∃ w, own x = .frame w := by
  unfold freeFrames
  cases hx : own x with
  | frame w =>
    dsimp only
    split_ifs
    · exact .inr ⟨rfl, w, rfl⟩
    · exact .inl rfl
  | _ => exact .inl rfl

theorem freeTable_cases (own : Owners) (S : TreePath (Fin 512) → Bool) (x : ℕ) :
    freeTable own S x = own x ∨ freeTable own S x = .free ∧ ∃ P, own x = .table P := by
  unfold freeTable
  cases hx : own x with
  | table P =>
    dsimp only
    split_ifs
    · exact .inr ⟨rfl, P, rfl⟩
    · exact .inl rfl
  | _ => exact .inl rfl

end Changes

/-! ### The table of a process -/

/-- The map of a process with `k` pages of user memory, whose flags satisfy `G`: above them there
are only the pages of the trapframe and of the trampoline, which are not for the user. -/
structure Layout (m : Mapping) (k : ℕ) (G : ℕ → Prop) : Prop where
  below : ∀ v < k, ∃ f g, m v = some (f, g) ∧ G g
  above : ∀ v, k ≤ v → v < userPages → m v = none
  special : ∀ v, userPages ≤ v → v < 2 ^ 26 → ∃ f g, m v = some (f, g) ∧ Nat.testBit g 4 = false
  beyond : ∀ v, 2 ^ 26 ≤ v → v < 2 ^ 27 → m v = none

/-- The table with this root, and the `k` pages of user memory, belong to the call. -/
structure Image (kend : ℕ) (own : Owners) (root k : ℕ) (G : ℕ → Prop) (s : State) : Prop where
  heap : Heap kend own s
  table : ∃ m, Tree own root m s ∧ Frames own m ∧ Layout m k G

section Image

variable {kend root k p : ℕ} {own own' : Owners} {s s' : State} {m : Mapping} {G : ℕ → Prop}
  {E : Fault → Prop}

/-- Different pages in a memory of `n` pages. -/
theorem le_of_injOn {n : ℕ} {f : ℕ → ℕ} (hlt : ∀ v < k, f v < n)
    (hinj : ∀ v < k, ∀ w < k, f v = f w → v = w) : k ≤ n := by
  have hcard : (Finset.range k).card ≤ (Finset.range n).card := by
    refine Finset.card_le_card_of_injOn f (fun v hv => ?_) fun v hv w hw heq => ?_
    · exact Finset.mem_coe.2 (Finset.mem_range.2 (hlt v (Finset.mem_range.1 hv)))
    · exact hinj v (Finset.mem_range.1 hv) w (Finset.mem_range.1 hw) heq
  rwa [Finset.card_range, Finset.card_range] at hcard

section

variable (h : Image kend own root k G s)

include h

/-- **There is less memory than address space**: every user page has a frame of its own. -/
theorem Image.pages_le : k ≤ phystop / pgsize := by
  obtain ⟨m, -, hF, hL⟩ := h.table
  have hlimit : phystop / pgsize < userPages := by decide
  have hframe : ∀ v < min k userPages, ∃ f, own f = .frame v := by
    intro v hv
    obtain ⟨f, g, hm, -⟩ := hL.below v (by omega)
    exact ⟨f, (hF f v).2 ⟨by omega, g, hm⟩⟩
  choose! f hf using hframe
  have hpage : ∀ v < min k userPages, pgsize ∣ f v ∧ f v < phystop := by
    intro v hv
    obtain ⟨h₁, -, h₂⟩ := h.heap.page (f v) (by rw [hf v hv]; exact nofun)
    exact ⟨h₁, h₂⟩
  have hnumber : ∀ v < min k userPages, f v / pgsize < phystop / pgsize := by
    intro v hv
    exact Nat.div_lt_div_of_lt_of_dvd (by decide) (hpage v hv).2
  have hinj : ∀ v < min k userPages, ∀ w < min k userPages, f v / pgsize = f w / pgsize →
      v = w := by
    intro v hv w hw heq
    have hsame : f v = f w := by
      rw [← Nat.div_mul_cancel (hpage v hv).1, ← Nat.div_mul_cancel (hpage w hw).1, heq]
    exact Owner.frame.inj (by rw [← hf v hv, ← hf w hw, hsame])
  have hbound := le_of_injOn hnumber hinj
  omega

theorem Image.lt_userPages : k < userPages :=
  Nat.lt_of_le_of_lt h.pages_le (by decide)

/-- Neither the free pages, nor the pages of the table, nor the owners of the frames change. -/
theorem Image.congr (hother : ∀ x, own x = .other → own' x = .other)
    (hfree : ∀ x, own' x = .free ↔ own x = .free)
    (htable : ∀ x P, own' x = .table P ↔ own x = .table P)
    (hframe : ∀ x v, own' x = .frame v ↔ own x = .frame v) (hlist : s'.freelist = s.freelist)
    (hmem : ∀ x, own x = .free ∨ (∃ P, own x = .table P) → s'.mem x = s.mem x) :
    Image kend own' root k G s' := by
  obtain ⟨m, ht, hF, hL⟩ := h.table
  refine ⟨h.heap.congr hfree hother hlist fun x hx => hmem x (.inl hx), m,
    ht.congr htable fun x P hx => hmem x (.inr ⟨P, hx⟩), fun x v => ?_, hL⟩
  rw [hframe, hF]

/-- A page that the call holds, or a frame, is written to. -/
theorem Image.write (hp : own p = .held ∨ ∃ v, own p = .frame v) (hlist : s'.freelist = s.freelist)
    (hmem : ∀ x ≠ p, s'.mem x = s.mem x) :
    Image kend own root k G s' := by
  refine h.congr (fun _ h => h) (fun _ => Iff.rfl) (fun _ _ => Iff.rfl) (fun _ _ => Iff.rfl) hlist
    fun x hx => hmem x ?_
  rintro rfl
  rcases hp with hp | ⟨v, hp⟩ <;> rcases hx with hx | ⟨P, hx⟩ <;> rw [hp] at hx <;> cases hx

end

/-- The owner of one page changes, which is neither free, nor in a table, nor a frame before or
after. -/
theorem update_iff {o o' : Owner} (hp : own p ≠ o') (ho : o ≠ o') (x : ℕ) :
    update own p o x = o' ↔ own x = o' := by
  rcases eq_or_ne x p with rfl | hx
  · rw [update_self]
    exact ⟨fun h => absurd h ho, fun h => absurd h hp⟩
  · rw [update_of_ne hx]

/-- A page is taken from the free ones, or given back. -/
theorem Image.reown {o : Owner} (h : Image kend own root k G s)
    (hheap : Heap kend (update own p o) s') (hp : own p = .free ∨ own p = .held)
    (ho : o = .held ∨ o = .free)
    (hmem : ∀ x ≠ p, s'.mem x = s.mem x) : Image kend (update own p o) root k G s' := by
  obtain ⟨m, ht, hF, hL⟩ := h.table
  have htable : ∀ P, own p ≠ .table P := by
    rcases hp with hp | hp <;> rw [hp] <;> exact fun _ => nofun
  have hframe : ∀ v, own p ≠ .frame v := by
    rcases hp with hp | hp <;> rw [hp] <;> exact fun _ => nofun
  refine ⟨hheap, m, ht.congr (fun x P => update_iff (htable P) ?_ x) fun x P hx => hmem x ?_,
    fun x v => ?_, hL⟩
  · rcases ho with rfl | rfl <;> exact nofun
  · rintro rfl
    exact htable P hx
  · rw [update_iff (hframe v) (by rcases ho with rfl | rfl <;> exact nofun), hF]

theorem kalloc_image (h : Image kend own root k G s) : Ends E kalloc s fun p t s' =>
    (p = 0 ∧ t = [.refused] ∧ s' = s) ∨
      p ≠ 0 ∧ t = [] ∧ own p = .free ∧ Image kend (update own p .held) root k G s' ∧
        ∀ x ≠ p, s'.mem x = s.mem x := by
  refine (kalloc_owns h.heap).post ?_
  rintro p t s' (hp | ⟨hne, rfl, hfree, hheap, hmem⟩)
  · exact .inl hp
  · exact .inr ⟨hne, rfl, hfree, h.reown hheap (.inl hfree) (.inl rfl) hmem, hmem⟩

theorem kfree_image (hkend : 0 < kend) (h : Image kend own root k G s) (hp : own p = .held) :
    Ends E (kfree kend p) s fun _ t s' => t = [] ∧
      Image kend (update own p .free) root k G s' ∧ ∀ x ≠ p, s'.mem x = s.mem x := by
  refine (kfree_owns hkend h.heap (by rw [hp]; exact nofun) (by rw [hp]; exact nofun)).post ?_
  rintro _ t s' ⟨rfl, hheap, hmem⟩
  exact ⟨rfl, h.reown hheap (.inr hp) (.inr rfl) hmem, hmem⟩

theorem Frames.linked (hF : Frames own m) (hl : Linked own own' s s') : Frames own' m := by
  intro x v
  rw [← hF]
  rcases hl.owners x with heq | ⟨hfree, P, hP⟩
  · rw [heq]
  · rw [hfree, hP]
    exact ⟨nofun, nofun⟩

/-- A page that the call holds becomes the frame of page `k`. -/
theorem Frames.enter {g : ℕ} (hF : Frames own m) (hp : own p = .held) (hk : k < userPages)
    (hm : m k = none) : Frames (update own p (.frame k)) (update m k (some (p, g))) := by
  intro x v
  rw [update_apply, update_apply]
  by_cases hx : x = p
  · subst hx
    rw [if_pos rfl]
    by_cases hv : v = k
    · rw [if_pos hv, hv]
      exact ⟨fun _ => ⟨hk, g, rfl⟩, fun _ => rfl⟩
    · rw [if_neg hv, ← hF, hp]
      exact ⟨fun h => absurd (Owner.frame.inj h).symm hv, nofun⟩
  · rw [if_neg hx, hF]
    by_cases hv : v = k
    · rw [if_pos hv, hv, hm]
      refine ⟨fun h => ?_, fun h => ?_⟩
      · obtain ⟨-, g', hg'⟩ := h
        cases hg'
      · obtain ⟨-, g', hg'⟩ := h
        cases hg'
        exact absurd rfl hx
    · rw [if_neg hv]

theorem Layout.enter {f g : ℕ} (hL : Layout m k G) (hk : k < userPages) (hG : G g) :
    Layout (update m k (some (f, g))) (k + 1) G := by
  have hlimit : userPages < 2 ^ 26 := by decide
  refine ⟨fun v hv => ?_, fun v h₁ h₂ => ?_, fun v h₁ h₂ => ?_, fun v h₁ h₂ => ?_⟩
  · rcases Nat.lt_succ_iff_lt_or_eq.1 hv with hlt | rfl
    · rw [update_of_ne (by omega)]
      exact hL.below v hlt
    · rw [update_self]
      exact ⟨f, g, rfl, hG⟩
  · rw [update_of_ne (by omega)]
    exact hL.above v (by omega) h₂
  · rw [update_of_ne (by omega)]
    exact hL.special v h₁ h₂
  · rw [update_of_ne (by omega)]
    exact hL.beyond v h₁ h₂

/-- **The next page of user memory is entered**, or a page for the table is refused. -/
theorem mappages_image {perm : ℕ} (h : Image kend own root k G s) (hp : own p = .held)
    (hperm : perm < 2 ^ 10) (hleaf : perm &&& 14 ≠ 0) (hG : G (perm ||| 1)) :
    Ends E (mappages root (k * pgsize) pgsize p perm) s fun r t s' => ∃ own', Linked own own' s s' ∧
      (r = -1 ∧ t = [.refused] ∧ Image kend own' root k G s' ∨
        r = 0 ∧ t = [] ∧ Image kend (update own' p (.frame k)) root (k + 1) G s') := by
  have hk := h.lt_userPages
  have hlimit : userPages < 2 ^ 26 := by decide
  obtain ⟨m, ht, hF, hL⟩ := h.table
  have hm := hL.above k le_rfl hk
  have haligned := (h.heap.page p (by rw [hp]; exact nofun)).1
  refine (mappages_owns h.heap ht (by omega) hm haligned hperm hleaf).post ?_
  rintro r t s' (⟨own', hheap, hl, ⟨rfl, rfl, htree⟩ | ⟨rfl, rfl, htree⟩⟩)
  · exact ⟨own', hl, .inl ⟨rfl, rfl, hheap, m, htree, hF.linked hl, hL⟩⟩
  · have hp' : own' p = .held := by
      rw [hl.eq_of_ne (by rw [hp]; exact nofun), hp]
    have hnot : ∀ o ≠ .held, own' p ≠ o := by
      intro o ho h
      exact ho (h.symm.trans hp')
    refine ⟨own', hl, .inr ⟨rfl, rfl, ?_, _, ?_, (hF.linked hl).enter hp' hk hm, hL.enter hk hG⟩⟩
    · refine hheap.congr (update_iff (hnot _ Owner.noConfusion) Owner.noConfusion)
        (fun x hx => ?_) rfl fun _ _ => rfl
      rwa [update_iff (hnot _ Owner.noConfusion) Owner.noConfusion]
    · exact htree.congr (fun x P => update_iff (hnot _ Owner.noConfusion) Owner.noConfusion x)
        fun _ _ _ => rfl

/-- **The last pages of user memory** are given back. -/
theorem uvmunmap_image {v : ℕ} (hkend : 0 < kend) (h : Image kend own root k G s) (hv : v ≤ k) :
    Ends E (uvmunmap kend root (v * pgsize) (k - v) true) s fun _ t s' => t = [] ∧
      ∃ own', Image kend own' root v G s' ∧ Changes own own' s s' := by
  have hk := h.lt_userPages
  obtain ⟨m, ht, hF, hL⟩ := h.table
  refine (uvmunmap_frees hkend h.heap ht hF (by omega) fun w h₁ h₂ => ?_).post fun _ t s' h' => ?_
  · obtain ⟨f, g, hm, -⟩ := hL.below w (by omega)
    rw [hm]
    exact Option.some_ne_none _
  · obtain ⟨rfl, hheap, htree, hmem⟩ := h'
    refine ⟨rfl, _, ⟨hheap, _, htree, hF.remove, ?_⟩, .of_freed (fun x => ?_) hmem⟩
    · have hkeep : ∀ w, (w < v ∨ k ≤ w) → m.remove v (k - v) w = m w :=
        fun w hw => if_neg (by omega)
      refine ⟨fun w hw => ?_, fun w h₁ h₂ => ?_, fun w h₁ h₂ => ?_, fun w h₁ h₂ => ?_⟩
      · rw [hkeep w (.inl hw)]
        exact hL.below w (by omega)
      · by_cases hw : w < k
        · exact if_pos (by omega)
        · rw [hkeep w (by omega)]
          exact hL.above w (by omega) h₂
      · rw [hkeep w (by omega)]
        exact hL.special w h₁ h₂
      · have hlimit : userPages < 2 ^ 26 := by decide
        rw [hkeep w (by omega)]
        exact hL.beyond w h₁ h₂
    · exact (freeFrames_cases _ _ _ _).imp_right fun h => ⟨h.1, .inr h.2⟩

/-- A page was taken, put to use or given back, and in between the call kept what it holds. -/
theorem Changes.of_held {s₁ s₂ : State} {o : Owner} (h : Changes (update own p .held) own' s₁ s₂)
    (hp : own p = .free) (hother : o ≠ .other) (hheld : o ≠ .held)
    (h₁ : ∀ x ≠ p, s₁.mem x = s.mem x) (h₂ : ∀ x ≠ p, s'.mem x = s₂.mem x) :
    Changes own (update own' p o) s s' := by
  refine ⟨fun x => ?_, fun x => ?_, fun x hx => ?_⟩
  · rcases eq_or_ne x p with rfl | hx
    · rw [update_self, hp]
      exact ⟨fun h => absurd h hother, nofun⟩
    · rw [update_of_ne hx, h.other, update_of_ne hx]
  · rcases eq_or_ne x p with rfl | hx
    · rw [update_self, hp]
      exact ⟨fun h => absurd h hheld, nofun⟩
    · rw [update_of_ne hx, h.held, update_of_ne hx]
  · have hne : x ≠ p := by
      rintro rfl
      rcases hx with hx | hx <;> rw [hp] at hx <;> cases hx
    rw [h₂ x hne, h.mem x (by rwa [update_of_ne hne]), h₁ x hne]

end Image

/-! ### Growing and shrinking user memory -/

/-- The number of pages that hold `sz` bytes. -/
def pages (sz : ℕ) : ℕ := pgroundup sz / pgsize

section Grow

variable {kend root k v p : ℕ} {own : Owners} {s : State} {G : ℕ → Prop} {E : Fault → Prop}

theorem pages_eq (sz : ℕ) : pages sz = (sz + 4095) / 4096 := by
  simp only [pages, pgroundup, pgrounddown, pgsize]
  omega

theorem pgroundup_eq (sz : ℕ) : pgroundup sz = pages sz * pgsize := by
  simp only [pages, pgroundup, pgrounddown, pgsize]
  omega

theorem pgroundup_mul (v : ℕ) : pgroundup (v * pgsize) = v * pgsize := by
  simp only [pgroundup, pgrounddown, pgsize]
  omega

theorem uvmdealloc_image (hkend : 0 < kend) (h : Image kend own root k G s) (hv : v ≤ k) :
    Ends E (uvmdealloc kend root (k * pgsize) (v * pgsize)) s fun _ t s' => t = [] ∧
      ∃ own', Image kend own' root v G s' ∧ Changes own own' s s' := by
  rw [uvmdealloc, pgroundup_mul, pgroundup_mul]
  rcases Nat.eq_or_lt_of_le hv with rfl | hlt
  · rw [if_pos le_rfl, ends_pure]
    exact ⟨rfl, own, h, .refl⟩
  · have hless : v * pgsize < k * pgsize := Nat.mul_lt_mul_of_pos_right hlt (by decide)
    have hcount : (k * pgsize - v * pgsize) / pgsize = k - v := by
      rw [← Nat.sub_mul, Nat.mul_div_cancel _ (by decide)]
    rw [if_neg (by omega), if_pos hless, hcount, ends_bind]
    refine (uvmunmap_image hkend h hv).post fun _ t s' h' => ?_
    rw [ends_pure, List.append_nil]
    exact h'

theorem user_flags (xperm : ℕ) (hx : xperm < 2 ^ 10) :
    2 ||| 16 ||| xperm < 2 ^ 10 ∧ (2 ||| 16 ||| xperm) &&& 14 ≠ 0 := by
  refine ⟨Nat.or_lt_two_pow (by decide) hx, fun hzero => ?_⟩
  rw [Nat.and_or_distrib_right, Nat.and_or_distrib_right] at hzero
  exact absurd (Nat.or_eq_zero_iff.1 (Nat.or_eq_zero_iff.1 hzero).1).1 (by decide)

/-- **A page is taken, filled and entered** as the next one; if it is refused, or a page for the
table is, everything is as it was. -/
theorem newPage_image {α : Type} {perm : ℕ} {fillPage : ℕ → Kernel Unit} {undo next : Kernel α}
    {Q : α → List Event → State → Prop} (hkend : 0 < kend) (h : Image kend own root v G s)
    (hperm : perm < 2 ^ 10) (hleaf : perm &&& 14 ≠ 0) (hG : G (perm ||| 1))
    (hfill : ∀ p s₁, Ends E (fillPage p) s₁ fun _ t s₂ => t = [] ∧ s₂.freelist = s₁.freelist ∧
      ∀ x ≠ p, s₂.mem x = s₁.mem x)
    (hundo : ∀ own' s', Image kend own' root v G s' → Changes own own' s s' →
      Ends E undo s' fun r t s'' => Q r (.refused :: t) s'')
    (hnext : ∀ own' s', Image kend own' root (v + 1) G s' → Changes own own' s s' →
      Ends E next s' Q) :
    Ends E (do
      let mem ← kalloc
      if mem = 0 then undo
      else do
        fillPage mem
        let r ← mappages root (v * pgsize) pgsize mem perm
        if r ≠ 0 then do
          kfree kend mem
          undo
        else next) s Q := by
  rw [ends_bind]
  refine (kalloc_image h).post ?_
  rintro p t s₁ (⟨rfl, rfl, rfl⟩ | ⟨hne, rfl, hfree, h₁, hmem₁⟩)
  · rw [if_pos rfl]
    exact hundo own _ h .refl
  rw [if_neg hne, ends_bind]
  refine (hfill p s₁).post ?_
  rintro _ _ s₂ ⟨rfl, hlist, hmem₂⟩
  have hp : update own p .held p = .held := update_self _ _ _
  have hmem : ∀ x ≠ p, s₂.mem x = s.mem x := fun x hx => (hmem₂ x hx).trans (hmem₁ x hx)
  rw [ends_bind]
  refine (mappages_image (h₁.write (.inl hp) hlist hmem₂) hp hperm hleaf hG).post ?_
  rintro r t s₃ ⟨own₁, hl, ⟨rfl, rfl, h₃⟩ | ⟨rfl, rfl, h₃⟩⟩
  · have hp₁ : own₁ p = .held := by
      rw [hl.eq_of_ne (by rw [hp]; exact nofun), hp]
    rw [if_pos (by decide), ends_bind]
    refine (kfree_image hkend h₃ hp₁).post ?_
    rintro _ t s₄ ⟨rfl, h₄, hmem₄⟩
    exact hundo _ s₄ h₄ (hl.changes.of_held hfree nofun nofun hmem hmem₄)
  · rw [if_neg (by decide)]
    exact hnext _ s₃ h₃ (hl.changes.of_held hfree nofun nofun hmem fun _ _ => rfl)

/-- The size that is still missing when one page more is there. -/
theorem next_page {n sz : ℕ} (hend : v * pgsize < sz) (hn : sz + pgsize ≤ (v + (n + 1)) * pgsize) :
    v + 1 ≤ pages sz ∧ sz + pgsize ≤ (v + 1 + n) * pgsize ∧
      v * pgsize + pgsize = (v + 1) * pgsize := by
  have hpages := pages_eq sz
  simp only [pgsize] at hend hn ⊢
  omega

/-- **The loop of `uvmalloc`**: the memory grows page by page, and shrinks again if a page is
refused. -/
theorem uvmallocLoop_image {v₀ newsz xperm n : ℕ} (hkend : 0 < kend) (hx : xperm < 2 ^ 10)
    (hG : G (2 ||| 16 ||| xperm ||| 1)) (h : Image kend own root v G s) (hv₀ : v₀ ≤ v)
    (hv : v ≤ pages newsz) (hn : newsz + pgsize ≤ (v + n) * pgsize) :
    Ends E (uvmallocLoop kend root (v₀ * pgsize) newsz xperm n (v * pgsize)) s fun r t s' => ∃ own',
      Changes own own' s s' ∧ (r = 0 ∧ t = [.refused] ∧ Image kend own' root v₀ G s' ∨
        r = newsz ∧ t = [] ∧ Image kend own' root (pages newsz) G s') := by
  have hpages := pages_eq newsz
  obtain ⟨hperm, hleaf⟩ := user_flags xperm hx
  induction n generalizing v own s with
  | zero =>
    simp only [pgsize] at hn
    omega
  | succ n ih =>
    rw [uvmallocLoop]
    by_cases hend : v * pgsize < newsz
    · rw [if_pos hend]
      refine newPage_image hkend h hperm hleaf hG (fun p s₁ => ?_) (fun own₁ s₁ h₁ hback => ?_)
        fun own₁ s₁ h₁ hused => ?_
      · rw [clear, ends_lift, PageTables.clear, ends_modify]
        exact ⟨rfl, rfl, fun x hx => PageTree.fill_of_ne hx⟩
      · rw [ends_bind]
        refine (uvmdealloc_image hkend h₁ hv₀).post ?_
        rintro _ t s₂ ⟨rfl, own', h₂, hchange⟩
        exact ends_pure.2 ⟨own', hback.trans hchange, .inl ⟨rfl, rfl, h₂⟩⟩
      · obtain ⟨hle, hleft, hnext⟩ := next_page hend hn
        rw [hnext]
        refine (ih h₁ (by omega) hle hleft).post ?_
        rintro r t s' ⟨own', hchange, hres⟩
        exact ⟨own', hused.trans hchange, hres⟩
    · rw [if_neg hend, ends_pure]
      have hall : v = pages newsz := by
        simp only [pgsize] at hend
        omega
      rw [← hall]
      exact ⟨own, .refl, .inr ⟨rfl, rfl, h⟩⟩

/-- **`uvmalloc`** grows the memory, or leaves it as it was. -/
theorem uvmalloc_image {oldsz newsz xperm : ℕ} (hkend : 0 < kend) (hx : xperm < 2 ^ 10)
    (hG : G (2 ||| 16 ||| xperm ||| 1)) (h : Image kend own root (pages oldsz) G s) :
    Ends E (uvmalloc kend root oldsz newsz xperm) s fun r t s' => ∃ own', Changes own own' s s' ∧
      (r = 0 ∧ Image kend own' root (pages oldsz) G s' ∨
        r ≠ 0 ∧ t = [] ∧ r = max oldsz newsz ∧ Image kend own' root (pages r) G s') := by
  have hpages := pages_eq oldsz
  have hpages' := pages_eq newsz
  rw [uvmalloc]
  by_cases hlt : newsz < oldsz
  · rw [if_pos hlt, ends_pure]
    exact ⟨own, .refl, .inr ⟨by omega, rfl, by omega, h⟩⟩
  · rw [if_neg hlt, pgroundup_eq]
    refine (uvmallocLoop_image hkend hx hG h le_rfl (by omega) ?_).post fun r t s' h' => ?_
    · simp only [pgsize]
      omega
    · obtain ⟨own', hchange, ⟨rfl, -, h'⟩ | ⟨rfl, rfl, h'⟩⟩ := h'
      · exact ⟨own', hchange, .inl ⟨rfl, h'⟩⟩
      · by_cases hzero : r = 0
        · -- a segment without bytes: the size stays zero
          refine ⟨own', hchange, .inl ⟨hzero, ?_⟩⟩
          rwa [show oldsz = r by omega]
        · exact ⟨own', hchange, .inr ⟨hzero, rfl, by omega, h'⟩⟩

end Grow

/-! ### Copying user memory -/

/-- A table of others, in which the pages of `sz` bytes are mapped. -/
structure Parent (own : Owners) (old sz : ℕ) (s : State) : Prop where
  mapped : ∀ v, v * pgsize < sz → ∃ f g, lookup s.mem old v = some (f, g)
  apart : ∀ x, InTree link s.mem old x → own x = .other

section Copy

variable {kend old new sz v : ℕ} {own own' : Owners} {s s' : State} {E : Fault → Prop}

/-- The map of a table of others does not change. -/
theorem lookup_other {w : ℕ} (hapart : ∀ x, InTree link s.mem old x → own x = .other)
    (hmem : ∀ x, own x = .other → s'.mem x = s.mem x) :
    lookup s'.mem old w = lookup s.mem old w := by
  refine PageTables.lookup_congr fun i j k => ?_
  rw [PageTree.leaf_of_agree fun x hx => hmem x (hapart x hx)]

theorem Parent.congr (hpar : Parent own old sz s) (hown : ∀ x, own x = .other → own' x = .other)
    (hmem : ∀ x, own x = .other → s'.mem x = s.mem x) : Parent own' old sz s' := by
  refine ⟨fun v hv => ?_, fun x hx => ?_⟩
  · rw [lookup_other hpar.apart hmem]
    exact hpar.mapped v hv
  · obtain ⟨P, hP⟩ := hx
    rw [PageTree.page_of_agree fun x hx => hmem x (hpar.apart x hx)] at hP
    exact hown x (hpar.apart x ⟨P, hP⟩)

theorem Parent.changes (hpar : Parent own old sz s) (h : Changes own own' s s') :
    Parent own' old sz s' :=
  hpar.congr (fun x => (h.other x).2) fun x hx => h.mem x (.inl hx)

/-- The entry of a page that is copied. -/
theorem Parent.walk_ends {Q : Option (ℕ × Fin 512) → List Event → State → Prop}
    (hpar : Parent own old sz s) (hv : v * pgsize < sz) (hmax : v < 2 ^ 26)
    (h : ∀ p, isLeaf (s.mem p (px 0 (v * pgsize))) = true → Q (some (p, px 0 (v * pgsize))) [] s) :
    Ends E (walk old (v * pgsize) false) s Q := by
  obtain ⟨f, g, hlookup⟩ := hpar.mapped v hv
  obtain ⟨p, hp, hleaf, -⟩ := PageTables.entry_of_lookup hlookup
  have hva : v * pgsize < maxva := by
    simp only [maxva, pgsize]
    omega
  have hrun : Runs (PageTables.walk old (v * pgsize) false) s _ [] s := PageTables.walk_runs hva
  rw [hp, Option.map_some] at hrun
  rw [walk, ends_refusing, hrun.ends_iff]
  exact h p hleaf

theorem leaf_flags {e : Pte} (h : isLeaf e = true) :
    e.valid = true ∧ pteFlags e < 2 ^ 10 ∧ pteFlags e &&& 14 ≠ 0 := by
  obtain ⟨hvalid, hflags⟩ := Bool.and_eq_true_iff.1 h
  refine ⟨hvalid, Nat.and_lt_two_pow _ (by decide), ?_⟩
  rw [← and_fourteen]
  exact of_decide_eq_true hflags

theorem uvmcopyErr_image {G : ℕ → Prop} (hkend : 0 < kend) (h : Image kend own new v G s) :
    Ends E (uvmcopyErr kend new (v * pgsize)) s fun r t s' => r = -1 ∧ t = [] ∧
      ∃ own', Image kend own' new 0 G s' ∧ Changes own own' s s' := by
  rw [uvmcopyErr, Nat.mul_div_cancel _ (by decide), ends_bind]
  have hunmap := uvmunmap_image (E := E) hkend h (Nat.zero_le v)
  rw [Nat.zero_mul, Nat.sub_zero] at hunmap
  refine hunmap.post fun _ t s' h' => ?_
  rw [ends_pure, List.append_nil]
  exact ⟨rfl, h'⟩

/-- **The loop of `uvmcopy`**: the pages are copied one by one, and given back if a page is
refused. -/
theorem uvmcopyLoop_image {n : ℕ} (hkend : 0 < kend) (hpar : Parent own old sz s)
    (h : Image kend own new v (fun _ => True) s) (hv : v ≤ pages sz)
    (hn : sz + pgsize ≤ (v + n) * pgsize) :
    Ends E (uvmcopyLoop kend old new sz n (v * pgsize)) s fun r t s' =>
      ∃ own', Changes own own' s s' ∧
      (r = -1 ∧ t = [.refused] ∧ Image kend own' new 0 (fun _ => True) s' ∨
        r = 0 ∧ t = [] ∧ Image kend own' new (pages sz) (fun _ => True) s') := by
  have hpages := pages_eq sz
  induction n generalizing v own s with
  | zero =>
    simp only [pgsize] at hn
    omega
  | succ n ih =>
    rw [uvmcopyLoop]
    by_cases hend : v * pgsize < sz
    · have hlimit : userPages < 2 ^ 26 := by decide
      have hmax := h.lt_userPages
      rw [if_pos hend, ends_bind]
      refine hpar.walk_ends hend (by omega) fun q hleaf => ?_
      obtain ⟨hvalid, hperm, hflags⟩ := leaf_flags hleaf
      dsimp only
      rw [ends_bind, ends_get, if_neg (by rw [hvalid]; exact Bool.noConfusion)]
      refine newPage_image hkend h hperm hflags trivial (fun p s₁ => ?_)
        (fun own₁ s₁ h₁ hback => ?_) fun own₁ s₁ h₁ hused => ?_
      · rw [ends_modify]
        exact ⟨rfl, rfl, fun x hx => update_of_ne hx _ _⟩
      · refine (uvmcopyErr_image hkend h₁).post ?_
        rintro r t s₂ ⟨rfl, rfl, own', h₂, hchange⟩
        exact ⟨own', hback.trans hchange, .inl ⟨rfl, rfl, h₂⟩⟩
      · obtain ⟨hle, hleft, hnext⟩ := next_page hend hn
        rw [hnext]
        refine (ih (hpar.changes hused) h₁ hle hleft).post ?_
        rintro r t s' ⟨own', hchange, hres⟩
        exact ⟨own', hused.trans hchange, hres⟩
    · rw [if_neg hend, ends_pure]
      have hall : v = pages sz := by
        simp only [pgsize] at hend
        omega
      rw [← hall]
      exact ⟨own, .refl, .inr ⟨rfl, rfl, h⟩⟩

/-- **`uvmcopy`** copies the memory, or leaves the new table as it was. -/
theorem uvmcopy_image (hkend : 0 < kend) (hpar : Parent own old sz s)
    (h : Image kend own new 0 (fun _ => True) s) :
    Ends E (uvmcopy kend old new sz) s fun r t s' => ∃ own', Changes own own' s s' ∧
      (r = -1 ∧ t = [.refused] ∧ Image kend own' new 0 (fun _ => True) s' ∨
        r = 0 ∧ t = [] ∧ Image kend own' new (pages sz) (fun _ => True) s') := by
  rw [uvmcopy, ← Nat.zero_mul pgsize]
  refine uvmcopyLoop_image hkend hpar h (Nat.zero_le _) ?_
  simp only [pgsize]
  omega

end Copy

/-! ### Making and freeing a table -/

section Tables

variable {kend root p sz : ℕ} {own own' : Owners} {s s' : State} {m m' : Mapping} {G : ℕ → Prop}
  {E : Fault → Prop}

theorem trampolineVa_eq : trampolineVa = (userPages + 1) * pgsize := by decide

theorem trapframeVa_eq : trapframeVa = userPages * pgsize := by decide

theorem Frames.congr (hF : Frames own m) (h : ∀ v < userPages, m' v = m v) : Frames own m' := by
  intro x v
  rw [hF]
  refine and_congr_right fun hv => ?_
  rw [h v hv]

/-- **`uvmfree`** gives back the frames and the pages of the table. -/
theorem uvmfree_owns (hkend : 0 < kend) (hh : Heap kend own s) (ht : Tree own root m s)
    (hF : Frames own m) (hk : pages sz ≤ userPages) (hbelow : ∀ v < pages sz, m v ≠ none)
    (hrest : ∀ v, pages sz ≤ v → v < 2 ^ 27 → m v = none) :
    Ends E (uvmfree kend root sz) s fun _ t s' => t = [] ∧
      ∃ own', Heap kend own' s' ∧ Idle own' ∧ Changes own own' s s' := by
  have hunmap : Ends E (guarded (0 < sz) (uvmunmap kend root 0 (pgroundup sz / pgsize) true)) s
      fun _ t s₁ => t = [] ∧ Heap kend (freeFrames own 0 (pages sz)) s₁ ∧
        Tree (freeFrames own 0 (pages sz)) root (m.remove 0 (pages sz)) s₁ ∧
        ∀ x, (∀ P, own x ≠ .table P) → (∀ w, own x ≠ .frame w) → s₁.mem x = s.mem x := by
    have hpages : pgroundup sz / pgsize = pages sz := rfl
    refine ends_guarded.2 ⟨fun hsz => ?_, fun hsz => ?_⟩
    · rw [hpages, ← Nat.zero_mul pgsize]
      exact uvmunmap_frees hkend hh ht hF (by omega) fun w _ hw => hbelow w (by omega)
    · obtain rfl : sz = 0 := by omega
      have hzero : m.remove 0 (pages 0) = m := funext fun w => if_neg (by rw [pages_eq]; omega)
      rw [hzero, show pages 0 = 0 from rfl, freeFrames_zero]
      exact ⟨rfl, hh, ht, fun _ _ _ => rfl⟩
  have hnone : ∀ v < 2 ^ 27, m.remove 0 (pages sz) v = none := by
    intro v hv
    by_cases hlt : v < pages sz
    · exact if_pos (by omega)
    · exact (if_neg (by omega)).trans (hrest v (by omega) hv)
  have hlimit : userPages < 2 ^ 27 := by decide
  rw [uvmfree, ends_bind]
  refine hunmap.post ?_
  rintro _ t s₁ ⟨rfl, hh₁, ht₁, hmem₁⟩
  refine (freewalk_owns hkend hh₁ ht₁ hnone).post ?_
  rintro _ t s₂ ⟨rfl, hh₂, hmem₂⟩
  refine ⟨rfl, _, hh₂, fun x => ?_, .of_freed (fun x => ?_) fun x hx hx' => ?_⟩
  · cases hx : freeTable (freeFrames own 0 (pages sz)) (fun _ => true) x with
    | other => exact .inl rfl
    | free => exact .inr (.inl rfl)
    | held => exact .inr (.inr rfl)
    | table P => exact absurd (freeTable_eq_table.1 hx).2 Bool.noConfusion
    | frame v =>
      rcases freeTable_cases (freeFrames own 0 (pages sz)) (fun _ => true) x with
        heq | ⟨hfree, -⟩
      · rw [heq] at hx
        obtain ⟨hv, g, hg⟩ := (hF.remove x v).1 hx
        rw [hnone v (by omega)] at hg
        cases hg
      · rw [hfree] at hx
        cases hx
  · rcases freeTable_cases (freeFrames own 0 (pages sz)) (fun _ => true) x with
      heq | ⟨hfree, P, hP⟩
    · rw [heq]
      exact (freeFrames_cases _ _ _ _).imp_right fun h => ⟨h.1, .inr h.2⟩
    · refine .inr ⟨hfree, ?_⟩
      rcases freeFrames_cases own 0 (pages sz) x with heq' | ⟨-, w, hw⟩
      · exact .inl ⟨P, heq'.symm.trans hP⟩
      · exact .inr ⟨w, hw⟩
  · rw [hmem₂ x ?_, hmem₁ x hx hx']
    rwa [freeFrames_of_ne hx']

/-- **`proc_freepagetable`** gives back the memory of a process and its table. -/
theorem procFreepagetable_image (hkend : 0 < kend) (h : Image kend own root (pages sz) G s) :
    Ends E (procFreepagetable kend root sz) s fun _ t s' => t = [] ∧
      ∃ own', Heap kend own' s' ∧ Idle own' ∧ Changes own own' s s' := by
  have hk := h.lt_userPages
  have hlimit : userPages + 2 = 2 ^ 26 := by decide
  obtain ⟨m, ht, hF, hL⟩ := h.table
  obtain ⟨f₁, g₁, hm₁, -⟩ := hL.special (userPages + 1) (by omega) (by omega)
  obtain ⟨f₂, g₂, hm₂, -⟩ := hL.special userPages le_rfl (by omega)
  rw [procFreepagetable, trampolineVa_eq, trapframeVa_eq, ends_bind]
  refine (uvmunmap_keeps h.heap ht (by omega) hm₁).post fun _ t s₁ h₁ => ?_
  obtain ⟨rfl, hh₁, ht₁, hmem₁⟩ := h₁
  have hm₂' : update m (userPages + 1) none userPages = some (f₂, g₂) := by
    rw [update_of_ne (by omega), hm₂]
  rw [ends_bind]
  refine (uvmunmap_keeps hh₁ ht₁ (by omega) hm₂').post ?_
  rintro _ t s₂ ⟨rfl, hh₂, ht₂, hmem₂⟩
  have hsame : ∀ v < userPages,
      update (update m (userPages + 1) none) userPages none v = m v := by
    intro v hv
    rw [update_of_ne (by omega), update_of_ne (by omega)]
  refine (uvmfree_owns hkend hh₂ ht₂ (hF.congr hsame) (by omega) (fun v hv => ?_)
    fun v h₁ h₂ => ?_).post fun _ t s₃ h₃ => ?_
  · obtain ⟨f, g, hm, -⟩ := hL.below v hv
    rw [hsame v (by omega), hm]
    exact Option.some_ne_none _
  · rw [update_apply, update_apply]
    split_ifs with hv₁ hv₂
    · rfl
    · rfl
    · by_cases hlt : v < userPages
      · exact hL.above v h₁ hlt
      · exact hL.beyond v (by omega) h₂
  · obtain ⟨rfl, own', hh₃, hidle, hchange⟩ := h₃
    have hunmapped : Changes own own s s₂ :=
      .of_mem fun x hx => (hmem₂ x (ne_table hx)).trans (hmem₁ x (ne_table hx))
    exact ⟨rfl, own', hh₃, hidle, hunmapped.trans hchange⟩

/-- A clear page has no page below it. -/
theorem page_clear (hmem : s.mem p = fun _ => 0) (P : TreePath (Fin 512)) :
    page link s.mem p P = if P = .root then some p else none := by
  have hlink : ∀ i, link (s.mem p i) = none := by
    intro i
    rw [hmem]
    exact PageTables.link_zero
  cases P with
  | root => rfl
  | mid i => exact (hlink i).trans (if_neg nofun).symm
  | low i j =>
    rw [page, hlink]
    rfl

/-- A page full of zeros is the root of a table in which nothing is mapped. -/
theorem Tree.empty (hown : ∀ x P, own x ≠ .table P) (hmem : s.mem p = fun _ => 0) :
    Tree (update own p (.table .root)) p (fun _ => none) s := by
  have hpage := page_clear hmem
  have hleaf : ∀ i j k, leaf link s.mem p i j k = none := by
    intro i j k
    rw [leaf, hpage, if_neg (by simp)]
    rfl
  refine ⟨fun x P => ?_, fun x P i hx _ hv => ?_, fun i j k e he => ?_, fun v _ => ?_⟩
  · rw [hpage, update_apply]
    by_cases hP : P = .root
    · rw [if_pos hP, hP]
      by_cases hx : x = p
      · rw [if_pos hx, hx]
        exact ⟨fun _ => rfl, fun _ => rfl⟩
      · rw [if_neg hx]
        exact ⟨fun h => absurd h (hown x _), fun h => absurd (Option.some.inj h).symm hx⟩
    · rw [if_neg hP]
      refine ⟨fun h => ?_, by simp⟩
      split_ifs at h
      · exact absurd (Owner.table.inj h).symm hP
      · exact absurd h (hown x P)
  · have hxp : x = p := by
      by_contra hne
      rw [update_of_ne hne] at hx
      exact hown x P hx
    rw [hxp, hmem] at hv
    exact absurd hv (show ¬ Pte.valid 0 = true by decide)
  · rw [hleaf] at he
    cases he
  · rw [lookup, hleaf]
    rfl

/-- **`uvmcreate`** makes a table in which nothing is mapped. -/
theorem uvmcreate_owns (hh : Heap kend own s) (hidle : Idle own) : Ends E uvmcreate s fun p t s' =>
    (p = 0 ∧ t = [.refused] ∧ s' = s) ∨ p ≠ 0 ∧ t = [] ∧ ∃ own', Heap kend own' s' ∧
      Tree own' p (fun _ => none) s' ∧ Frames own' (fun _ => none) ∧ Changes own own' s s' := by
  rw [uvmcreate, ends_refusing, PageTables.uvmcreate, ends_bind]
  refine (ends_refusing.1 (kalloc_owns hh)).post ?_
  rintro p t s₁ (⟨rfl, hrec, rfl⟩ | ⟨hne, hrec, hfree, hh₁, hmem₁⟩)
  · rw [if_pos rfl, ends_pure, List.append_nil]
    exact .inl ⟨rfl, hrec, rfl⟩
  rw [if_neg hne, ends_bind, PageTables.clear, ends_modify, ends_pure, List.append_nil,
    List.append_nil, hrec]
  have hnot : ∀ o ≠ .held, update own p .held p ≠ o := by
    intro o ho h
    rw [update_self] at h
    exact ho h.symm
  have hidem : update (update own p .held) p (.table .root) =
      update own p (.table .root) := update_idem _ _ _
  have htables : ∀ x P, own x ≠ .table P := by
    intro x P hx
    rcases hidle x with h | h | h <;> rw [h] at hx <;> cases hx
  refine .inr ⟨hne, rfl, update own p (.table .root), ?_, ?_, fun x v => ?_, ?_⟩
  · rw [← hidem]
    refine hh₁.congr (update_iff (hnot _ Owner.noConfusion) Owner.noConfusion) (fun x hx => ?_) rfl
      fun x hx => PageTree.fill_of_ne ?_
    · rwa [update_iff (hnot _ Owner.noConfusion) Owner.noConfusion]
    · rintro rfl
      exact hnot _ Owner.noConfusion hx
  · refine Tree.empty htables ?_
    exact PageTree.fill_self
  · rw [update_iff (by rw [hfree]; exact Owner.noConfusion) Owner.noConfusion]
    refine ⟨fun h => ?_, fun h => ?_⟩
    · rcases hidle x with hx | hx | hx <;> rw [hx] at h <;> cases h
    · obtain ⟨-, g, hg⟩ := h
      cases hg
  · have hheld : Changes (update own p .held) (update own p .held) s₁ s₁ := .refl
    have hclear : ∀ x ≠ p, ({ s₁ with mem := fill s₁.mem p 0 } : State).mem x = s₁.mem x :=
      fun x hx => PageTree.fill_of_ne hx
    have hchange := hheld.of_held (o := .table .root) hfree (by simp) (by simp) hmem₁
      hclear
    rwa [hidem] at hchange

/-- What `proc_pagetable` does when it is refused a page: the table that was begun is freed. -/
theorem uvmfree_begun {own₁ : Owners} {s₁ : State} (hkend : 0 < kend) (hidle : Idle own)
    (hh : Heap kend own₁ s₁) (ht : Tree own₁ root (fun _ => none) s₁)
    (hF : Frames own₁ fun _ => none)
    (hchange : Changes own own₁ s s₁) : Ends E (uvmfree kend root 0) s₁ fun _ t s' => t = [] ∧
      Heap kend own s' ∧ Changes own own s s' := by
  refine (uvmfree_owns hkend hh ht hF (Nat.zero_le _) (fun v hv => ?_) fun _ _ _ => rfl).post
    fun _ t s' h' => ?_
  · exact absurd hv (Nat.not_lt_zero v)
  · obtain ⟨rfl, own', hh', hidle', hchange'⟩ := h'
    have hall := hchange.trans hchange'
    rw [hall.eq_of_idle hidle hidle'] at hh' hall
    exact ⟨rfl, hh', hall⟩

/-- **`proc_pagetable`** makes a table without user memory, or leaves everything as it was. -/
theorem procPagetable_image {trampoline trapframe : ℕ} (hkend : 0 < kend)
    (htramp : pgsize ∣ trampoline)
    (htrap : pgsize ∣ trapframe) (hh : Heap kend own s) (hidle : Idle own) :
    Ends E (procPagetable kend trampoline trapframe) s fun root t s' =>
      (root = 0 ∧ t = [.refused] ∧ Heap kend own s' ∧ Changes own own s s') ∨
        root ≠ 0 ∧ t = [] ∧ ∃ own', Image kend own' root 0 G s' ∧ Changes own own' s s' := by
  have hlimit : userPages + 2 = 2 ^ 26 := by decide
  rw [procPagetable, trampolineVa_eq, trapframeVa_eq, ends_bind]
  refine (uvmcreate_owns hh hidle).post ?_
  rintro root t s₁ (⟨rfl, rfl, rfl⟩ | ⟨hne, rfl, own₁, hh₁, ht₁, hF₁, hc₁⟩)
  · rw [if_pos rfl, ends_pure]
    exact .inl ⟨rfl, rfl, hh, .refl⟩
  rw [if_neg hne, ends_bind]
  refine (mappages_owns hh₁ ht₁ (by omega) rfl htramp (by decide) (by decide)).post ?_
  rintro r t s₂ (⟨own₂, hh₂, hl₂, ⟨rfl, rfl, ht₂⟩ | ⟨rfl, rfl, ht₂⟩⟩)
  · rw [if_pos (by decide), ends_bind]
    refine (uvmfree_begun hkend hidle hh₂ ht₂ (hF₁.linked hl₂) (hc₁.trans hl₂.changes)).post ?_
    rintro _ t s₃ ⟨rfl, hh₃, hc₃⟩
    exact ends_pure.2 (.inl ⟨rfl, rfl, hh₃, hc₃⟩)
  rw [if_neg (by decide), ends_bind]
  have hc₂ := hc₁.trans hl₂.changes
  have hF₂ := hF₁.linked hl₂
  have hmiss : update (fun _ => none) (userPages + 1) (some (trampoline, 2 ||| 8 ||| 1)) userPages =
      (none : Option (ℕ × ℕ)) := update_of_ne (by omega) _ _
  refine (mappages_owns hh₂ ht₂ (by omega) hmiss htrap (by decide) (by decide)).post ?_
  rintro r t s₃ (⟨own₃, hh₃, hl₃, ⟨rfl, rfl, ht₃⟩ | ⟨rfl, rfl, ht₃⟩⟩)
  · rw [if_pos (by decide), ends_bind]
    refine (uvmunmap_keeps hh₃ ht₃ (by omega) (update_self _ _ _)).post ?_
    rintro _ t s₄ ⟨rfl, hh₄, ht₄, hmem₄⟩
    have hnone : update (update (fun _ => none) (userPages + 1)
        (some (trampoline, 2 ||| 8 ||| 1))) (userPages + 1) none = (fun _ => none : Mapping) := by
      rw [update_idem, update_eq_self]
    rw [hnone] at ht₄
    rw [ends_bind]
    have hc₄ : Changes own₃ own₃ s₃ s₄ := .of_mem fun x hx => hmem₄ x (ne_table hx)
    refine (uvmfree_begun hkend hidle hh₄ ht₄ (hF₂.linked hl₃)
      ((hc₂.trans hl₃.changes).trans hc₄)).post ?_
    rintro _ t s₅ ⟨rfl, hh₅, hc₅⟩
    exact ends_pure.2 (.inl ⟨rfl, rfl, hh₅, hc₅⟩)
  · rw [if_neg (by decide), ends_pure]
    refine .inr ⟨hne, rfl, own₃, ⟨hh₃, _, ht₃, (hF₂.linked hl₃).congr fun v hv => ?_, ?_⟩,
      hc₂.trans hl₃.changes⟩
    · rw [update_of_ne (by omega), update_of_ne (by omega)]
    · refine ⟨fun v hv => absurd hv (Nat.not_lt_zero v), fun v _ hv => ?_, fun v h₁ h₂ => ?_,
        fun v h₁ h₂ => ?_⟩
      · rw [update_of_ne (by omega), update_of_ne (by omega)]
      · rcases Nat.eq_or_lt_of_le h₁ with rfl | hlt
        · rw [update_self]
          exact ⟨_, _, rfl, by decide⟩
        · obtain rfl : v = userPages + 1 := by omega
          rw [update_of_ne (by omega), update_self]
          exact ⟨_, _, rfl, by decide⟩
      · rw [update_of_ne (by omega), update_of_ne (by omega)]

end Tables

/-! ### Access to user memory -/

section Access

variable {kend root k v va p : ℕ} {own : Owners} {s s' : State} {m : Mapping} {G : ℕ → Prop}
  {E : Fault → Prop}

theorem user_eq (e : Pte) : e.user = Nat.testBit (pteFlags e) 4 := by
  rw [Pte.user, pteFlags, Nat.testBit_and, show Nat.testBit 0x3FF 4 = true by decide, Bool.and_true]

/-- The map and the entry of an address. -/
theorem Tree.map_entry (h : Tree own root m s) (hva : va < maxva)
    (hp : page link s.mem root (.low (px 2 va) (px 1 va)) = some p) :
    m (va / pgsize) = if isLeaf (s.mem p (px 0 va)) then some (decode (s.mem p (px 0 va)))
      else none := by
  have hv : va / pgsize < 2 ^ 27 := by
    simp only [maxva, pgsize] at hva ⊢
    omega
  rw [← h.map _ hv, PageTables.lookup_of_page (p := p), PageTables.px_of_div]
  rw [PageTables.px_of_div, PageTables.px_of_div, hp]

/-- **`walkaddr`** finds frames of user memory only, and finds those that the user may access. -/
theorem walkaddr_image (h : Image kend own root k G s) : Ends E (walkaddr root va) s fun pa t s' =>
    t = [] ∧ s' = s ∧ (own pa = .frame (va / pgsize) ∨
      pa = 0 ∧ ((∀ g, G g → Nat.testBit g 4 = true) → k ≤ va / pgsize)) := by
  have hk := h.lt_userPages
  have hlimit : userPages < 2 ^ 26 := by decide
  obtain ⟨m, ht, hF, hL⟩ := h.table
  rw [walkaddr]
  by_cases hmax : maxva ≤ va
  · rw [if_pos hmax, ends_pure]
    refine ⟨rfl, rfl, .inr ⟨rfl, fun _ => ?_⟩⟩
    simp only [maxva, pgsize] at hmax ⊢
    omega
  have hva : va < maxva := by omega
  have hpage : va / pgsize < 2 ^ 26 := by
    simp only [maxva, pgsize] at hva ⊢
    omega
  -- a page below `k` has a leaf entry
  have hmapped : va / pgsize < k → ∃ f g, m (va / pgsize) = some (f, g) ∧ G g := hL.below _
  have hrun : Runs (PageTables.walk root va false) s _ [] s := PageTables.walk_runs hva
  rw [if_neg hmax, ends_bind, walk, ends_refusing, hrun.ends_iff]
  cases hp : page link s.mem root (.low (px 2 va) (px 1 va)) with
  | none =>
    refine ends_pure.2 ⟨rfl, rfl, .inr ⟨rfl, fun _ => ?_⟩⟩
    by_contra hlt
    obtain ⟨f, g, hm, -⟩ := hmapped (by omega)
    have hlookup := (ht.map _ (by omega)).trans hm
    rw [lookup, leaf, PageTables.px_of_div, PageTables.px_of_div, PageTables.px_of_div,
      hp] at hlookup
    cases hlookup
  | some p =>
    have hm := ht.map_entry hva hp
    dsimp only [Option.map_some]
    rw [ends_bind, ends_get]
    by_cases hvalid : (s.mem p (px 0 va)).valid = false
    · rw [if_pos hvalid, ends_pure]
      refine ⟨rfl, rfl, .inr ⟨rfl, fun _ => ?_⟩⟩
      by_contra hlt
      obtain ⟨f, g, hfg, -⟩ := hmapped (by omega)
      rw [hfg, isLeaf, hvalid] at hm
      cases hm
    · rw [if_neg hvalid]
      have hleaf := ht.leaves _ _ (px 0 va) (s.mem p (px 0 va)) (by rw [leaf, hp, Option.map_some])
        (by simpa using hvalid)
      rw [if_pos hleaf] at hm
      by_cases huser : (s.mem p (px 0 va)).user = false
      · rw [if_pos huser, ends_pure]
        refine ⟨rfl, rfl, .inr ⟨rfl, fun hG => ?_⟩⟩
        by_contra hlt
        obtain ⟨f, g, hfg, hg⟩ := hmapped (by omega)
        cases hm.symm.trans hfg
        have hbit := hG _ hg
        rw [← user_eq, huser] at hbit
        cases hbit
      · rw [if_neg huser, ends_pure]
        refine ⟨rfl, rfl, .inl ((hF _ _).2 ⟨?_, _, hm⟩)⟩
        by_contra hge
        obtain ⟨f, g, hfg, hbit⟩ := hL.special (va / pgsize) (by omega) hpage
        cases hm.symm.trans hfg
        rw [← user_eq] at hbit
        exact huser hbit

/-- A frame is written to. -/
theorem Changes.write (hp : own p = .frame v) (hmem : ∀ x ≠ p, s'.mem x = s.mem x) :
    Changes own own s s' := by
  refine .of_mem fun x hx => hmem x ?_
  rintro rfl
  exact ne_frame hx v hp

theorem moveIn_image {off : ℕ} {bytes : List UserByte} (h : Image kend own root k G s)
    (hp : own p = .frame v) :
    Ends E (moveIn p off bytes) s fun _ t s' =>
      t = [] ∧ Image kend own root k G s' ∧ Changes own own s s' := by
  rw [moveIn, ends_modify]
  exact ⟨rfl, h.write (.inr ⟨v, hp⟩) rfl fun x hx => update_of_ne hx _ _,
    .write hp fun x hx => update_of_ne hx _ _⟩

/-- **`copyout`** changes frames of user memory only. -/
theorem copyoutLoop_image {n : ℕ} {src : List UserByte} (h : Image kend own root k G s)
    (hn : src.length < n) :
    Ends E (copyoutLoop root n va src) s fun _ t s' => t = [] ∧ Image kend own root k G s' ∧
      Changes own own s s' := by
  induction n generalizing va src s with
  | zero => exact absurd hn (Nat.not_lt_zero _)
  | succ n ih =>
    rw [copyoutLoop]
    by_cases hlen : 0 < src.length
    · rw [if_pos hlen, ends_bind]
      refine (walkaddr_image h).post ?_
      rintro pa t s₁ ⟨rfl, rfl, hpa⟩
      by_cases hzero : pa = 0
      · rw [if_pos hzero, ends_pure]
        exact ⟨rfl, h, .refl⟩
      · have hframe := hpa.resolve_right fun h => hzero h.1
        rw [if_neg hzero]
        dsimp only
        rw [ends_bind]
        refine (moveIn_image h hframe).post ?_
        rintro _ t s₂ ⟨rfl, h₂, hchange₂⟩
        refine (ih h₂ ?_).post fun _ t s₃ h₃ => ?_
        · have hmod := Nat.mod_lt va (show 0 < pgsize by decide)
          rw [List.length_drop]
          simp only [pgrounddown, pgsize] at hmod ⊢
          omega
        · obtain ⟨rfl, h₃, hchange₃⟩ := h₃
          exact ⟨rfl, h₃, hchange₂.trans hchange₃⟩
    · rw [if_neg hlen, ends_pure]
      exact ⟨rfl, h, .refl⟩

theorem copyout_image {src : List UserByte} (h : Image kend own root k G s) :
    Ends E (copyout root va src) s fun _ t s' => t = [] ∧ Image kend own root k G s' ∧
      Changes own own s s' := copyoutLoop_image h (Nat.lt_succ_self _)

/-- Without `PTE_U` an entry leads to the same frame. -/
theorem withoutUser_leaf {e : Pte} (h : isLeaf e = true) :
    isLeaf (withoutUser e) = true ∧ pte2pa (withoutUser e) = pte2pa e := by
  have hflags : withoutUser e &&& 14 = e &&& 14 := by
    rw [withoutUser, Nat.and_xor_distrib_right, Nat.and_assoc, show 16 &&& 14 = 0 by decide,
      Nat.and_zero, Nat.xor_zero]
  have hvalid : (withoutUser e).valid = e.valid := by
    rw [Pte.valid, withoutUser, Nat.testBit_xor, Nat.testBit_and, show Nat.testBit 16 0 =
      false by decide, Bool.and_false, Bool.xor_false]
    rfl
  refine ⟨?_, ?_⟩
  · rw [isLeaf, hvalid, hflags]
    exact h
  · have hshift : (e &&& 16) >>> 10 = 0 := by
      rw [Nat.shiftRight_and_distrib, show 16 >>> 10 = 0 by decide, Nat.and_zero]
    rw [pte2pa, withoutUser, Nat.shiftRight_xor_distrib, hshift, Nat.xor_zero, pte2pa]

/-- **`uvmclear`** takes a page from the user; the page stays mapped. -/
theorem uvmclear_image (h : Image kend own root k G s) (hv : v < k) :
    Ends E (uvmclear root (v * pgsize)) s fun _ t s' => t = [] ∧
      Image kend own root k (fun _ => True) s' ∧ Changes own own s s' := by
  have hk := h.lt_userPages
  have hlimit : userPages < 2 ^ 26 := by decide
  obtain ⟨m, ht, hF, hL⟩ := h.table
  obtain ⟨f, g, hm, -⟩ := hL.below v hv
  obtain ⟨p, hp, hleaf, hf⟩ := ht.entry (by omega) hm
  obtain ⟨hleaf', hframe⟩ := withoutUser_leaf hleaf
  have hva : v * pgsize < maxva := by
    simp only [maxva, pgsize]
    omega
  have hrun : Runs (PageTables.walk root (v * pgsize) false) s _ [] s := PageTables.walk_runs hva
  rw [(ht.pages p _).1 hp, Option.map_some] at hrun
  rw [uvmclear, ends_bind, walk, ends_refusing, hrun.ends_iff]
  dsimp only
  rw [ends_bind, ends_get, store, ends_lift, PageTables.store, ends_modify]
  have ht' := ht.store (v := v) (e := withoutUser (s.mem p (px 0 (v * pgsize)))) (by omega) hp
    fun _ => hleaf'
  rw [if_pos hleaf', decode, hframe, hf] at ht'
  refine ⟨rfl, ⟨?_, _, ht', fun x w => ?_, ?_⟩, .of_mem fun x hx => ?_⟩
  · refine h.heap.congr (fun _ => Iff.rfl) (fun _ h => h) rfl fun x hx => PageTree.set_of_ne ?_
    rintro rfl
    rw [hx] at hp
    cases hp
  · rw [hF, update_apply]
    by_cases hw : w = v
    · rw [if_pos hw, hw, hm]
      refine and_congr_right fun _ => ⟨fun h => ?_, fun h => ?_⟩
      · obtain ⟨g', hg'⟩ := h
        cases hg'
        exact ⟨_, rfl⟩
      · obtain ⟨g', hg'⟩ := h
        cases hg'
        exact ⟨g, rfl⟩
    · rw [if_neg hw]
  · refine ⟨fun w hw => ?_, fun w h₁ h₂ => ?_, fun w h₁ h₂ => ?_, fun w h₁ h₂ => ?_⟩
    · rw [update_apply]
      split_ifs
      · exact ⟨_, _, rfl, trivial⟩
      · obtain ⟨f', g', hm', -⟩ := hL.below w hw
        exact ⟨f', g', hm', trivial⟩
    · rw [update_of_ne (by omega)]
      exact hL.above w h₁ h₂
    · rw [update_of_ne (by omega)]
      exact hL.special w h₁ h₂
    · rw [update_of_ne (by omega)]
      exact hL.beyond w h₁ h₂
  · refine PageTree.set_of_ne ?_
    rintro rfl
    exact ne_table hx _ hp

end Access

end RaidSystem.Vm
