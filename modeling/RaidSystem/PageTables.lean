/-
**Page tables: `kernel/vm.c`.**

A page table is built on demand in pages from the allocator: `mappages` enters pages into it, with
`walk` creating the pages of the table that are missing, and `uvmunmap` removes them.  Seen from
outside it is a map from pages to frames, and this is what the lookup in `AddressSpace.lean` works
with.

Physical memory is a function from pages to their 512 words here.  The free list of
`kernel/kalloc.c` runs through the first words of the free pages, and a page that is freed is filled
with ones; the rest of the kernel may change everything outside of the table between two calls.

Main definitions:

* `kalloc`, `kfree`, `walk`, `mappages`, `uvmunmap`, `uvmcreate` — the functions of the kernel;
* `lookup` — the page as `walk(pagetable, va, 0)` finds it;
* `Mapping`, `Maps` — maps from pages to frames, and the map that a history of calls stands for;
* `Allowed`, `Careful` — the calls that are made, and what callers have to take care of.

Main results:

* `walk_lookup` — `lookup` is what `walk` finds;
* `tree_lookup` — it is also the lookup of `AddressSpace.lean`, in the tree that the memory holds;
* `calls_return` — the calls return;
* `table_serves` — along every run, user addresses are translated by the map, and no call panics;
* `page_table_is_map` — **after every history the table holds the map that the history stands for**;
* `freed_table_page` — without care it may not: a table page that was mapped is freed.
-/

import RaidSystem.AddressSpace
import RaidSystem.ExactTrace
import RaidSystem.PageTree
import RaidSystem.Reach

set_option autoImplicit false

namespace RaidSystem.PageTables

open Prog
open PageTree (page leaf Separate InTree set fill grow)

/-! ### The functions -/

/-- `PA2PTE(pa)`. -/
def pa2pte (pa : ℕ) : Pte := (pa >>> 12) <<< 10

/-- `PTE_FLAGS(pte)`. -/
def pteFlags (pte : Pte) : ℕ := pte &&& 0x3FF

/-- The page that a valid entry of the upper levels leads to. -/
def link (pte : Pte) : Option ℕ := if pte.valid then some (pte2pa pte) else none

/-- The words of physical memory by page and index, and the first page of the free list. -/
structure State where
  mem : ℕ → Fin 512 → Pte
  freelist : ℕ

/-- The panics, and a loop that does not end. -/
inductive Fault
  | kfree
  | mappagesSize
  | remap
  | notAligned
  | unmapWalk
  | notMapped
  | notALeaf
  | looping
deriving DecidableEq

/-- The accesses are what `kalloc` returned: the pages that it gave out, and `0` where it had
none. -/
abbrev Kernel := Prog State ℕ Fault

/-- The first word of a page. -/
def first : Fin 512 := ⟨0, Nat.succ_pos 511⟩

/-- `kalloc`; the page is filled with fives. -/
def kalloc : Kernel ℕ := do
  let s ← get
  emit s.freelist
  if s.freelist = 0 then pure 0
  else do
    modify fun s => ⟨fill s.mem s.freelist 0x0505050505050505, s.mem s.freelist first⟩
    pure s.freelist

/-- `kfree(pa)`, where the memory for pages begins at `kend`; the page is filled with ones. -/
def kfree (kend pa : ℕ) : Kernel Unit :=
  if pa % pgsize ≠ 0 ∨ pa < kend ∨ phystop ≤ pa then fail .kfree
  else modify fun s => ⟨set (fill s.mem pa 0x0101010101010101) pa first s.freelist, pa⟩

/-- `memset(p, 0, PGSIZE)`. -/
def clear (p : ℕ) : Kernel Unit := modify fun s => { s with mem := fill s.mem p 0 }

/-- `*pte = e`. -/
def store (p : ℕ) (i : Fin 512) (e : Pte) : Kernel Unit :=
  modify fun s => { s with mem := set s.mem p i e }

/-- One round of the loop of `walk`: the page of the next level. -/
def walkStep (alloc : Bool) (p : ℕ) (i : Fin 512) : Kernel (Option ℕ) := do
  let s ← get
  if (s.mem p i).valid then pure (some (pte2pa (s.mem p i)))
  else if alloc then do
    let q ← kalloc
    if q = 0 then pure none
    else do
      clear q
      store p i (pa2pte q ||| 1)
      pure (some q)
  else pure none

/-- `walk(pagetable, va, alloc)`: the page and the index of the entry. -/
def walk (pagetable va : ℕ) (alloc : Bool) : Kernel (Option (ℕ × Fin 512)) :=
  if maxva ≤ va then pure none
  else do
    match ← walkStep alloc pagetable (px 2 va) with
    | none => pure none
    | some level₁ =>
      match ← walkStep alloc level₁ (px 1 va) with
      | none => pure none
      | some level₀ => pure (some (level₀, px 0 va))

/-- The loop of `mappages`, with a bound on the number of rounds. -/
def mapLoop (pagetable perm last : ℕ) : ℕ → ℕ → ℕ → Kernel ℤ
  | 0, _, _ => fail .looping
  | k + 1, a, pa => do
    match ← walk pagetable a true with
    | none => pure (-1)
    | some (p, i) => do
      let s ← get
      if (s.mem p i).valid then fail .remap
      else do
        store p i (pa2pte pa ||| perm ||| 1)
        if a = last then pure 0 else mapLoop pagetable perm last k (a + pgsize) (pa + pgsize)

/-- `mappages`; every page that it enters contains a byte of the range. -/
def mappages (pagetable va size pa perm : ℕ) : Kernel ℤ :=
  if size = 0 then fail .mappagesSize
  else mapLoop pagetable perm (pgrounddown (va + size - 1)) size (pgrounddown va) pa

/-- One round of `uvmunmap`. -/
def unmapPage (kend pagetable : ℕ) (doFree : Bool) (a : ℕ) : Kernel Unit := do
  match ← walk pagetable a false with
  | none => fail .unmapWalk
  | some (p, i) => do
    let s ← get
    if (s.mem p i).valid = false then fail .notMapped
    else if pteFlags (s.mem p i) = 1 then fail .notALeaf
    else if doFree then do
      kfree kend (pte2pa (s.mem p i))
      store p i 0
    else store p i 0

def uvmunmap (kend pagetable va npages : ℕ) (doFree : Bool) : Kernel Unit :=
  if va % pgsize ≠ 0 then fail .notAligned
  else forRange (fun i => unmapPage kend pagetable doFree (va + i * pgsize)) 0 npages

def uvmcreate : Kernel ℕ := do
  let p ← kalloc
  if p = 0 then pure 0
  else do
    clear p
    pure p

/-! ### The map -/

/-- A leaf entry: valid, and with at least one of `PTE_R`, `PTE_W` and `PTE_X`. -/
def isLeaf (pte : Pte) : Bool := pte.valid && decide (pte &&& 14 ≠ 0)

/-- The frame and the flags of an entry. -/
def decode (pte : Pte) : ℕ × ℕ := (pte2pa pte, pteFlags pte)

/-- The frame and the flags of page number `v`, if there is a valid leaf entry for it. -/
def lookup (mem : ℕ → Fin 512 → Pte) (root v : ℕ) : Option (ℕ × ℕ) :=
  ((leaf link mem root (px 2 (v * pgsize)) (px 1 (v * pgsize)) (px 0 (v * pgsize))).filter
    isLeaf).map decode

/-- A map from pages to frames and flags. -/
abbrev Mapping := ℕ → Option (ℕ × ℕ)

/-- `n` pages from page `v` on are mapped to consecutive frames. -/
def Mapping.extend (m : Mapping) (v n pa perm : ℕ) : Mapping := fun w =>
  if v ≤ w ∧ w < v + n then some (pa + (w - v) * pgsize, perm ||| 1) else m w

/-- `n` pages from page `v` on are not mapped any more. -/
def Mapping.remove (m : Mapping) (v n : ℕ) : Mapping := fun w =>
  if v ≤ w ∧ w < v + n then none else m w

/-- The number of pages that a range of addresses touches. -/
def pages (va size : ℕ) : ℕ := (va + size - 1) / pgsize - va / pgsize + 1

/-- Calls, and what the rest of the kernel does in between. -/
inductive Action
  | mappages (va size pa perm : ℕ)
  | uvmunmap (va npages : ℕ) (doFree : Bool)
  | elsewhere (mem : ℕ → Fin 512 → Pte) (freelist : ℕ)

def step (kend root : ℕ) : Action → Kernel ℤ
  | .mappages va size pa perm => mappages root va size pa perm
  | .uvmunmap va npages doFree => do
    uvmunmap kend root va npages doFree
    pure 0
  | .elsewhere mem freelist => do
    modify fun _ => ⟨mem, freelist⟩
    pure 0

/-- What a call does to the map, with the number that it returned and what `kalloc` returned to it:
`mappages` enters its range, or, if `kalloc` returned `0`, it fails and enters the first pages of
it; `uvmunmap` removes its range. -/
def Effect : Action → ℤ × List ℕ → Mapping → Mapping → Prop
  | .mappages va size pa perm, (r, t), m, m' =>
    (r = 0 ∧ m' = m.extend (va / pgsize) (pages va size) pa perm) ∨
      r = -1 ∧ 0 ∈ t ∧ ∃ k < pages va size, m' = m.extend (va / pgsize) k pa perm
  | .uvmunmap va npages _, _, m, m' => m' = m.remove (va / pgsize) npages
  | .elsewhere _ _, _, m, m' => m' = m

/-- The maps that a history of calls and replies may stand for. -/
inductive Maps : List (Action × ℤ × List ℕ) → Mapping → Prop
  | start : Maps [] fun _ => none
  | next {l : List (Action × ℤ × List ℕ)} {m m' : Mapping} {a : Action} {r : ℤ × List ℕ}
      (h : Maps l m) (ha : Effect a r m m') : Maps ((a, r) :: l) m'

/-- What `kalloc` returned are pages, all different, and not in use for the table; a call that gets
no page ends there, so that `0` is not returned twice. -/
structure Fresh (root : ℕ) (mem : ℕ → Fin 512 → Pte) (t : List ℕ) : Prop where
  nodup : t.Nodup
  aligned : ∀ p ∈ t, pgsize ∣ p
  unused : ∀ p ∈ t, p ≠ 0 → ¬ InTree link mem root p

/-- The calls that are made: ranges below `MAXVA`, of unmapped pages for `mappages` and of mapped
pages for `uvmunmap`; `kalloc` gives out pages that are not in use; and the rest of the kernel
leaves the table alone. -/
def Allowed (kend root : ℕ) (s : State) (a : Action) : Prop :=
  match a with
  | .mappages va size pa perm => 0 < size ∧ va + size ≤ maxva ∧ pgsize ∣ pa ∧ pa < 2 ^ 56 ∧
      perm &&& 14 ≠ 0 ∧
      (∀ v, va / pgsize ≤ v → v < va / pgsize + pages va size → lookup s.mem root v = none) ∧
      Fresh root s.mem (step kend root a s).trace
  | .uvmunmap va npages _ => va + npages * pgsize ≤ maxva ∧
      ∀ v, va / pgsize ≤ v → v < va / pgsize + npages → lookup s.mem root v ≠ none
  | .elsewhere mem _ => ∀ x, InTree link s.mem root x → mem x = s.mem x

/-- What callers take care of: permissions are flags of an entry, and the frames that are freed are
not pages of the table. -/
def Careful (root : ℕ) (s : State) : Action → Prop
  | .mappages _ _ _ perm => perm < 2 ^ 10
  | .uvmunmap va npages true => ∀ v, va / pgsize ≤ v → v < va / pgsize + npages →
      ∀ f p, lookup s.mem root v = some (f, p) → ¬ InTree link s.mem root f
  | _ => True

/-- `walk(pagetable, va, 0)` yields the valid leaf entry `e`. -/
def Yields (root : ℕ) (s : State) (va : ℕ) (e : Pte) : Prop :=
  ∃ p i, Returns (walk root va false) s (some (p, i)) s ∧ s.mem p i = e ∧ isLeaf e = true

/-- The table is the map `m`. -/
def Shows (root : ℕ) (s : State) (m : Mapping) : Prop :=
  ∀ va < maxva, (∀ e, Yields root s va e → m (va / pgsize) = some (decode e)) ∧
    ∀ x, m (va / pgsize) = some x → ∃ e, Yields root s va e ∧ decode e = x

/-- In every run from `uvmcreate`, the table is the map that the history stands for. -/
def IsMap (ok : ℕ → ℕ → State → Action → Prop) : Prop :=
  ∀ kend root z s₀ l s, Returns uvmcreate z root s₀ → root ≠ 0 →
    LogReach (fun a => traced (step kend root a)) (ok kend root) s₀ l s → ∃ m, Maps l m ∧
    Shows root s m

/-! ### Entries and indices -/

section Entries

variable {pa perm v w : ℕ}

/-- An entry with its flags, as a sum. -/
theorem entry_eq {f : ℕ} (hf : f < 2 ^ 10) : pa2pte pa ||| f = 2 ^ 10 * (pa / pgsize) + f := by
  rw [pa2pte, Nat.shiftLeft_eq, Nat.shiftRight_eq_div_pow, Nat.mul_comm]
  exact (Nat.two_pow_add_eq_or_of_lt hf _).symm

theorem pte2pa_entry {f : ℕ} (hpa : pgsize ∣ pa) (hf : f < 2 ^ 10) :
    pte2pa (pa2pte pa ||| f) = pa := by
  rw [pte2pa_eq, entry_eq hf, Nat.mul_add_div (by decide), Nat.div_eq_of_lt hf, Nat.add_zero,
    Nat.mul_div_cancel' hpa]

theorem pteFlags_entry {f : ℕ} (hf : f < 2 ^ 10) : pteFlags (pa2pte pa ||| f) = f := by
  have hmod : pteFlags (pa2pte pa ||| f) = (pa2pte pa ||| f) % 2 ^ 10 :=
    Nat.and_two_pow_sub_one_eq_mod _ 10
  rw [hmod, entry_eq hf, Nat.mul_add_mod, Nat.mod_eq_of_lt hf]

theorem flags_lt (hperm : perm < 2 ^ 10) : perm ||| 1 < 2 ^ 10 :=
  Nat.or_lt_two_pow hperm (by decide)

theorem valid_or_one (x : ℕ) : Pte.valid (x ||| 1) = true := by
  rw [Pte.valid, Nat.testBit_or]
  simp

/-- A new page of the table is linked. -/
theorem link_entry (hpa : pgsize ∣ pa) : link (pa2pte pa ||| 1) = some pa := by
  rw [link, if_pos (valid_or_one _), pte2pa_entry hpa (by decide)]

theorem link_zero : link 0 = none := by decide

/-- What `mappages` stores is a leaf entry, with the frame and the flags it was given. -/
theorem isLeaf_entry (hperm : perm &&& 14 ≠ 0) : isLeaf (pa2pte pa ||| perm ||| 1) = true := by
  have hflags : (pa2pte pa ||| perm ||| 1) &&& 14 ≠ 0 := by
    rw [Nat.and_or_distrib_right, Nat.and_or_distrib_right]
    intro hzero
    exact hperm (Nat.or_eq_zero_iff.1 (Nat.or_eq_zero_iff.1 hzero).1).2
  rw [isLeaf, valid_or_one, decide_eq_true hflags, Bool.and_self]

theorem decode_entry (hpa : pgsize ∣ pa) (hperm : perm < 2 ^ 10) :
    decode (pa2pte pa ||| perm ||| 1) = (pa, perm ||| 1) := by
  rw [decode, Nat.or_assoc, pte2pa_entry hpa (flags_lt hperm), pteFlags_entry (flags_lt hperm)]

/-- The indices of a page number: its digits. -/
theorem px_page (level v : ℕ) : (px level (v * pgsize)).val = v / 512 ^ level % 512 := by
  have hpow : (2 : ℕ) ^ (12 + 9 * level) = pgsize * 512 ^ level := by
    rw [Nat.pow_add, Nat.pow_mul]
  have hshift : (v * pgsize) >>> (12 + 9 * level) = v / 512 ^ level := by
    rw [Nat.shiftRight_eq_div_pow, hpow, ← Nat.div_div_eq_div_mul, Nat.mul_div_cancel _ (by decide)]
  simp only [px, hshift]

/-- **The indices determine the page.** -/
theorem page_eq_of_px (hv : v < 2 ^ 27) (hw : w < 2 ^ 27)
    (h₂ : px 2 (v * pgsize) = px 2 (w * pgsize)) (h₁ : px 1 (v * pgsize) = px 1 (w * pgsize))
    (h₀ : px 0 (v * pgsize) = px 0 (w * pgsize)) : v = w := by
  have e₂ := congrArg Fin.val h₂
  have e₁ := congrArg Fin.val h₁
  have e₀ := congrArg Fin.val h₀
  rw [px_page, px_page] at e₂ e₁ e₀
  norm_num at e₂ e₁ e₀
  omega

theorem px_of_div {level va : ℕ} : px level (va / pgsize * pgsize) = px level va :=
  px_congr (Nat.mul_div_cancel _ (by decide))

end Entries

/-! ### The table after each operation -/

section Table

variable {root : ℕ} {s s' : State} {t t₁ t₂ : List ℕ} {p q va : ℕ} {i : Fin 512} {alloc : Bool}

theorem lookup_congr {mem mem' : ℕ → Fin 512 → Pte} {v : ℕ}
    (h : ∀ i j k, (leaf link mem' root i j k).filter isLeaf =
      (leaf link mem root i j k).filter isLeaf) :
    lookup mem' root v = lookup mem root v := by rw [lookup, h, lookup]

/-- Storing an entry of the lowest level changes one page of the map. -/
theorem lookup_set {mem : ℕ → Fin 512 → Pte} {v w : ℕ} {e : Pte} (hs : Separate link mem root)
    (hp : page link mem root (.low (px 2 (v * pgsize)) (px 1 (v * pgsize))) = some p)
    (hv : v < 2 ^ 27) (hw : w < 2 ^ 27) : lookup (set mem p (px 0 (v * pgsize)) e) root w =
      if w = v then (if isLeaf e then some (decode e) else none) else lookup mem root w := by
  rw [lookup, PageTree.leaf_set_leaf hs hp]
  by_cases h : w = v
  · rw [if_pos (by rw [h]; exact ⟨rfl, rfl, rfl⟩), if_pos h, Option.filter_some]
    split_ifs <;> rfl
  · rw [if_neg (fun h' => h (page_eq_of_px hw hv h'.1 h'.2.1 h'.2.2)), if_neg h, lookup]

/-- No page is in the table twice, and the valid entries of its lowest level are leaf entries. -/
structure Sound (root : ℕ) (mem : ℕ → Fin 512 → Pte) : Prop where
  separate : Separate link mem root
  leaves : ∀ i j k e, leaf link mem root i j k = some e → e.valid = true → isLeaf e = true

/-- What is left of the table when pages `t` were taken into it. -/
structure Grows (root : ℕ) (s : State) (t : List ℕ) (s' : State) : Prop where
  sound : Sound root s'.mem
  inTree : ∀ x, InTree link s'.mem root x → InTree link s.mem root x ∨ x ∈ t
  lookup : ∀ v, lookup s'.mem root v = lookup s.mem root v

theorem Grows.refl (hs : Sound root s.mem) : Grows root s t s :=
  ⟨hs, fun _ h => .inl h, fun _ => rfl⟩

theorem Grows.trans {s₁ : State} (h₁ : Grows root s t₁ s₁) (h₂ : Grows root s₁ t₂ s') :
    Grows root s (t₁ ++ t₂) s' := by
  refine ⟨h₂.sound, fun x hx => ?_, fun v => (h₂.lookup v).trans (h₁.lookup v)⟩
  rw [List.mem_append]
  rcases h₂.inTree x hx with h | h
  · rcases h₁.inTree x h with h' | h'
    · exact .inl h'
    · exact .inr (.inl h')
  · exact .inr (.inr h)

theorem Fresh.left (h : Fresh root s.mem (t₁ ++ t₂)) : Fresh root s.mem t₁ :=
  ⟨(List.nodup_append.1 h.nodup).1, fun p hp => h.aligned p (List.mem_append_left t₂ hp),
    fun p hp => h.unused p (List.mem_append_left t₂ hp)⟩

/-- Pages that were not in use before are not in use after others were taken. -/
theorem Fresh.right (h : Fresh root s.mem (t₁ ++ t₂)) (hg : Grows root s t₁ s') :
    Fresh root s'.mem t₂ := by
  obtain ⟨-, hnodup, hdisjoint⟩ := List.nodup_append.1 h.nodup
  refine ⟨hnodup, fun p hp => h.aligned p (List.mem_append_right t₁ hp), fun p hp h0 hin => ?_⟩
  rcases hg.inTree p hin with hold | hnew
  · exact h.unused p (List.mem_append_right t₁ hp) h0 hold
  · exact hdisjoint p hnew p hp rfl

theorem Fresh.nil : Fresh root s.mem [] :=
  ⟨List.nodup_nil, fun _ h => absurd h List.not_mem_nil, fun _ h => absurd h List.not_mem_nil⟩

/-- The state after `walk` has linked in the first free page. -/
def State.grown (s : State) (p : ℕ) (i : Fin 512) : State :=
  ⟨grow s.mem p i s.freelist 0 (pa2pte s.freelist ||| 1), s.mem s.freelist first⟩

/-- **One round of `walk`** follows the entry, or finds nothing, or links in a new page. -/
theorem walkStep_runs (alloc : Bool) (p : ℕ) (i : Fin 512) (s : State) :
    (∃ q, link (s.mem p i) = some q ∧ Runs (walkStep alloc p i) s (some q) [] s) ∨
      (link (s.mem p i) = none ∧ (alloc = true → s.freelist = 0) ∧
        Runs (walkStep alloc p i) s none (bif alloc then [0] else []) s) ∨
      link (s.mem p i) = none ∧ alloc = true ∧ s.freelist ≠ 0 ∧
        Runs (walkStep alloc p i) s (some s.freelist) [s.freelist] (s.grown p i) := by
  unfold walkStep link
  simp only [(get_runs s).silent_iff]
  by_cases hv : (s.mem p i).valid = true
  · rw [if_pos hv, if_pos hv]
    exact .inl ⟨_, rfl, runs_pure.2 ⟨rfl, rfl, rfl⟩⟩
  rw [if_neg hv, if_neg hv]
  cases alloc with
  | false => exact .inr (.inl ⟨rfl, nofun, runs_pure.2 ⟨rfl, rfl, rfl⟩⟩)
  | true =>
    rw [if_pos rfl]
    by_cases hfree : s.freelist = 0
    · refine .inr (.inl ⟨rfl, fun _ => hfree, ?_⟩)
      have hkalloc : Runs kalloc s 0 [0] s := by
        rw [kalloc, (get_runs s).silent_iff, (emit_runs _ s).bind_iff, if_pos hfree, hfree]
        exact ⟨[], runs_pure.2 ⟨rfl, rfl, rfl⟩, rfl⟩
      exact hkalloc.bind_iff.2 ⟨[], runs_pure.2 ⟨rfl, rfl, rfl⟩, rfl⟩
    · have hkalloc : Runs kalloc s s.freelist [s.freelist]
          ⟨fill s.mem s.freelist 0x0505050505050505, s.mem s.freelist first⟩ := by
        rw [kalloc, (get_runs s).silent_iff, (emit_runs _ s).bind_iff, if_neg hfree]
        refine ⟨[], ?_, rfl⟩
        rw [(modify_runs _ s).silent_iff]
        exact runs_pure.2 ⟨rfl, rfl, rfl⟩
      refine .inr (.inr ⟨rfl, rfl, hfree, hkalloc.bind_iff.2 ⟨[], ?_, rfl⟩⟩)
      rw [if_neg hfree, clear, (modify_runs _ _).silent_iff, store, (modify_runs _ _).silent_iff]
      refine runs_pure.2 ⟨rfl, rfl, ?_⟩
      have hfill : fill (fill s.mem s.freelist 0x0505050505050505) s.freelist 0 =
          fill s.mem s.freelist 0 := Function.update_idem _ _ _
      rw [State.grown, grow, hfill]

/-- A round of `walk` at an entry that links to the place `P` of the tree.  The leaves of a new page
are clear, and there were none before. -/
theorem grows_step {r : Option ℕ} {P : TreePath (Fin 512)} (hs : Sound root s.mem)
    (hP : page link s.mem root P = link (s.mem p i))
    (hgrown : link (s.mem p i) = none → pgsize ∣ s.freelist → ¬ InTree link s.mem root s.freelist →
      (∀ P', page link (s.grown p i).mem root P' =
        if P' = P then some s.freelist else page link s.mem root P') ∧
      ∀ i' j' k', leaf link (s.grown p i).mem root i' j' k' = leaf link s.mem root i' j' k' ∨
        leaf link (s.grown p i).mem root i' j' k' = some 0 ∧ leaf link s.mem root i' j' k' = none)
    (h : Runs (walkStep alloc p i) s r t s') (hf : Fresh root s.mem t) :
    Grows root s t s' ∧ ∀ q, r = some q → page link s'.mem root P = some q := by
  rcases walkStep_runs alloc p i s with ⟨q, hq, hrun⟩ | ⟨-, -, hrun⟩ | ⟨hnone, -, hfree, hrun⟩
  · cases hrun.symm.trans h
    refine ⟨.refl hs, fun q' hq' => ?_⟩
    cases hq'
    rw [hP, hq]
  · cases hrun.symm.trans h
    exact ⟨.refl hs, fun q' hq' => by cases hq'⟩
  · cases hrun.symm.trans h
    have hunused := hf.unused _ List.mem_cons_self hfree
    obtain ⟨hpage, hleaf⟩ := hgrown hnone (hf.aligned _ List.mem_cons_self) hunused
    refine ⟨⟨⟨PageTree.separate_of_link hs.separate hunused hpage, fun i' j' k' e he hv => ?_⟩,
      fun x hx => ?_, fun v => lookup_congr fun i' j' k' => ?_⟩, fun q' hq' => ?_⟩
    · rcases hleaf i' j' k' with hold | ⟨hnew, -⟩
      · exact hs.leaves i' j' k' e (hold ▸ he) hv
      · cases hnew.symm.trans he
        cases hv
    · rcases PageTree.inTree_of_link hpage hx with rfl | hold
      · exact .inr List.mem_cons_self
      · exact .inl hold
    · rcases hleaf i' j' k' with hold | ⟨hnew, hnone⟩
      · rw [hold]
      · rw [hnew, hnone]
        rfl
    · cases hq'
      rw [hpage, if_pos rfl]

/-- The first round of `walk`. -/
theorem grows_root {r : Option ℕ} (hs : Sound root s.mem)
    (h : Runs (walkStep alloc root i) s r t s') (hf : Fresh root s.mem t) :
    Grows root s t s' ∧ ∀ q, r = some q → page link s'.mem root (.mid i) = some q := by
  refine grows_step hs rfl (fun hnone hal hunused => ?_) h hf
  have hlink := link_entry hal
  exact ⟨fun P => PageTree.page_link_mid hs.separate link_zero hlink hunused hnone,
    fun i' j' k' => .inl
    (PageTree.leaf_link_mid hs.separate link_zero hlink hunused hnone i' j' k')⟩

/-- The second round of `walk`. -/
theorem grows_mid {r : Option ℕ} {j : Fin 512} (hs : Sound root s.mem)
    (hp : page link s.mem root (.mid i) = some p) (h : Runs (walkStep alloc p j) s r t s')
    (hf : Fresh root s.mem t) :
    Grows root s t s' ∧ ∀ q, r = some q → page link s'.mem root (.low i j) = some q := by
  have hlow : page link s.mem root (.low i j) = link (s.mem p j) := by
    have hmid : link (s.mem root i) = some p := hp
    rw [page, hmid, Option.bind_some]
  refine grows_step hs hlow (fun hnone hal hunused => ?_) h hf
  have hlink := link_entry hal
  refine ⟨fun P => PageTree.page_link_low hs.separate hlink hunused hp, fun i' j' k' => ?_⟩
  rw [State.grown, PageTree.leaf_link_low hs.separate hlink hunused hp]
  split_ifs with hij
  · refine .inr ⟨rfl, ?_⟩
    rw [leaf, hij.1, hij.2, hlow, hnone]
    rfl
  · exact .inl rfl

/-- `walk` always returns. -/
theorem walk_total (root va : ℕ) (alloc : Bool) (s : State) :
    ∃ r t s', Runs (walk root va alloc) s r t s' := by
  have hstep : ∀ p i s, ∃ r t s', Runs (walkStep alloc p i) s r t s' := by
    intro p i s
    rcases walkStep_runs alloc p i s with ⟨q, -, hrun⟩ | ⟨-, -, hrun⟩ | ⟨-, -, -, hrun⟩
    · exact ⟨_, _, _, hrun⟩
    · exact ⟨_, _, _, hrun⟩
    · exact ⟨_, _, _, hrun⟩
  unfold walk
  by_cases hva : maxva ≤ va
  · rw [if_pos hva]
    exact ⟨none, [], s, runs_pure.2 ⟨rfl, rfl, rfl⟩⟩
  rw [if_neg hva]
  obtain ⟨r₁, t₁, s₁, h₁⟩ := hstep root (px 2 va) s
  cases r₁ with
  | none => exact ⟨none, _, _, h₁.bind_iff.2 ⟨[], runs_pure.2 ⟨rfl, rfl, rfl⟩, rfl⟩⟩
  | some q₁ =>
    obtain ⟨r₂, t₂, s₂, h₂⟩ := hstep q₁ (px 1 va) s₁
    cases r₂ with
    | none =>
      refine ⟨none, _, s₂, h₁.bind_iff.2 ⟨t₂, ?_, rfl⟩⟩
      exact h₂.bind_iff.2 ⟨[], runs_pure.2 ⟨rfl, rfl, rfl⟩, (List.append_nil t₂).symm⟩
    | some q₂ =>
      refine ⟨some (q₂, px 0 va), _, s₂, h₁.bind_iff.2 ⟨t₂, ?_, rfl⟩⟩
      exact h₂.bind_iff.2 ⟨[], runs_pure.2 ⟨rfl, rfl, rfl⟩, (List.append_nil t₂).symm⟩

/-- **`walk`** adds pages to the table and changes no page of the map; if it finds an entry, it is
the one for the address. -/
theorem grows_walk {r : Option (ℕ × Fin 512)} (hva : va < maxva) (hs : Sound root s.mem)
    (h : Runs (walk root va alloc) s r t s') (hf : Fresh root s.mem t) :
    Grows root s t s' ∧ ∀ p i, r = some (p, i) → i = px 0 va ∧
      page link s'.mem root (.low (px 2 va) (px 1 va)) = some p := by
  rw [walk, if_neg (by omega)] at h
  obtain ⟨r₁, t₁, s₁, t', h₁, hrest, rfl⟩ := runs_bind.1 h
  obtain ⟨hg₁, hmid⟩ := grows_root hs h₁ hf.left
  have hf' := hf.right hg₁
  cases r₁ with
  | none =>
    obtain ⟨rfl, rfl, rfl⟩ := runs_pure.1 hrest
    rw [List.append_nil]
    exact ⟨hg₁, fun p i hpi => by cases hpi⟩
  | some q₁ =>
    obtain ⟨r₂, t₂, s₂, t₃, h₂, hlast, rfl⟩ := runs_bind.1 hrest
    obtain ⟨hg₂, hlow⟩ := grows_mid hg₁.sound (hmid q₁ rfl) h₂ hf'.left
    cases r₂ with
    | none =>
      obtain ⟨rfl, rfl, rfl⟩ := runs_pure.1 hlast
      rw [List.append_nil]
      exact ⟨hg₁.trans hg₂, fun p i hpi => by cases hpi⟩
    | some q₂ =>
      obtain ⟨rfl, rfl, rfl⟩ := runs_pure.1 hlast
      rw [List.append_nil]
      refine ⟨hg₁.trans hg₂, fun p i hpi => ?_⟩
      cases hpi
      exact ⟨rfl, hlow q₂ rfl⟩

/-- One round that is to allocate finds nothing only if it is refused a page. -/
theorem walkStep_refused (h : Runs (walkStep true p i) s none t s') : t = [0] := by
  rcases walkStep_runs true p i s with ⟨q, -, hrun⟩ | ⟨-, -, hrun⟩ | ⟨-, -, -, hrun⟩
  · cases hrun.symm.trans h
  · cases hrun.symm.trans h
    rfl
  · cases hrun.symm.trans h

/-- **`walk` fails** only after `kalloc` returned `0`. -/
theorem walk_refused (hva : va < maxva) (h : Runs (walk root va true) s none t s') : 0 ∈ t := by
  rw [walk, if_neg (by omega)] at h
  obtain ⟨r₁, t₁, s₁, t', h₁, hrest, rfl⟩ := runs_bind.1 h
  rw [List.mem_append]
  cases r₁ with
  | none => exact .inl (by rw [walkStep_refused h₁]; exact List.mem_cons_self)
  | some q₁ =>
    obtain ⟨r₂, t₂, s₂, t₃, h₂, hlast, rfl⟩ := runs_bind.1 hrest
    cases r₂ with
    | none => exact .inr (by rw [walkStep_refused h₂]; exact List.mem_cons_self)
    | some q₂ => cases (runs_pure.1 hlast).1

/-- `walk(pagetable, va, 0)` changes nothing and finds the entry if the pages for it are there. -/
theorem walk_runs (hva : va < maxva) : Runs (walk root va false) s
    ((page link s.mem root (.low (px 2 va) (px 1 va))).map fun p => (p, px 0 va)) [] s := by
  have hstep : ∀ p i, Runs (walkStep false p i) s (link (s.mem p i)) [] s := by
    intro p i
    rcases walkStep_runs false p i s with ⟨q, hq, hrun⟩ | ⟨hnone, -, hrun⟩ | ⟨-, halloc, -⟩
    · rwa [hq]
    · rwa [hnone]
    · cases halloc
  rw [walk, if_neg (by omega), (hstep root (px 2 va)).silent_iff, page]
  cases h₁ : link (s.mem root (px 2 va)) with
  | none => exact runs_pure.2 ⟨rfl, rfl, rfl⟩
  | some q =>
    dsimp only
    rw [(hstep q (px 1 va)).silent_iff, Option.bind_some]
    cases h₂ : link (s.mem q (px 1 va)) with
    | none => exact runs_pure.2 ⟨rfl, rfl, rfl⟩
    | some q' => exact runs_pure.2 ⟨rfl, rfl, rfl⟩

/-- **`lookup` is what `walk` finds.** -/
theorem walk_lookup (hva : va < maxva) (x : ℕ × ℕ) : lookup s.mem root (va / pgsize) = some x ↔
    ∃ e, Yields root s va e ∧ decode e = x := by
  have hrun : Runs (walk root va false) s _ [] s := walk_runs hva
  rw [lookup, px_of_div, px_of_div, px_of_div, leaf]
  cases hpage : page link s.mem root (.low (px 2 va) (px 1 va)) with
  | none =>
    rw [hpage] at hrun
    refine ⟨by simp, ?_⟩
    rintro ⟨e, ⟨p, i, hret, -, -⟩, -⟩
    cases (hret.unique hrun.returns).1
  | some p =>
    rw [hpage, Option.map_some] at hrun
    rw [Option.map_some, Option.filter_some]
    constructor
    · intro h
      by_cases hleaf : isLeaf (s.mem p (px 0 va)) = true
      · rw [if_pos hleaf, Option.map_some, Option.some.injEq] at h
        exact ⟨_, ⟨p, px 0 va, hrun.returns, rfl, hleaf⟩, h⟩
      · rw [if_neg hleaf] at h
        cases h
    · rintro ⟨e, ⟨p', i, hret, rfl, hleaf⟩, rfl⟩
      cases (hret.unique hrun.returns).1
      rw [if_pos hleaf, Option.map_some]

theorem shows_of_lookup {m : Mapping} (h : ∀ v < 2 ^ 26, lookup s.mem root v = m v) :
    Shows root s m := by
  intro va hva
  have hpage : va / pgsize < 2 ^ 26 := by
    simp only [maxva, pgsize] at hva ⊢
    omega
  rw [← h _ hpage]
  exact ⟨fun e he => (walk_lookup hva _).2 ⟨e, he, rfl⟩, fun x hx => (walk_lookup hva x).1 hx⟩

end Table

/-! ### `mappages` -/

section Map

variable {root : ℕ} {s s₁ : State} {p v w n pa perm : ℕ}

/-- The entry that `walk` found, as part of the map. -/
theorem lookup_of_page
    (hp : page link s.mem root (.low (px 2 (v * pgsize)) (px 1 (v * pgsize))) = some p) :
    lookup s.mem root v = if isLeaf (s.mem p (px 0 (v * pgsize))) then
      some (decode (s.mem p (px 0 (v * pgsize)))) else none := by
  rw [lookup, leaf, hp, Option.map_some, Option.filter_some]
  split_ifs <;> rfl

/-- The table after an entry was stored. -/
theorem Sound.set {mem : ℕ → Fin 512 → Pte} {i j k : Fin 512} {e : Pte} (hs : Sound root mem)
    (hp : page link mem root (.low i j) = some p) (he : e.valid = true → isLeaf e = true) :
    Sound root (set mem p k e) := by
  refine ⟨PageTree.separate_set_leaf hs.separate hp, fun i' j' k' e' he' hv => ?_⟩
  rw [PageTree.leaf_set_leaf hs.separate hp] at he'
  split_ifs at he'
  · cases he'
    exact he hv
  · exact hs.leaves i' j' k' e' he' hv

theorem Fresh.set {mem : ℕ → Fin 512 → Pte} {i j k : Fin 512} {e : Pte} {t : List ℕ}
    (hs : Separate link mem root) (hp : page link mem root (.low i j) = some p)
    (h : Fresh root mem t) : Fresh root (PageTree.set mem p k e) t := by
  refine ⟨h.nodup, h.aligned, fun q hq h0 ⟨P, hP⟩ => ?_⟩
  rw [PageTree.page_set_leaf hs hp] at hP
  exact h.unused q hq h0 ⟨P, hP⟩

@[simp] theorem extend_zero (m : Mapping) : m.extend v 0 pa perm = m := by
  funext w
  exact if_neg (by omega)

/-- The map after the first page of a range was entered. -/
theorem extend_succ {m m₁ : Mapping} (h : m₁ w = if w = v then some (pa, perm ||| 1) else m w) :
    m₁.extend (v + 1) n (pa + pgsize) perm w = m.extend v (n + 1) pa perm w := by
  unfold Mapping.extend
  rw [h]
  by_cases hw : w = v
  · subst hw
    rw [if_neg (by omega), if_pos rfl, if_pos (by omega), Nat.sub_self, Nat.zero_mul, Nat.add_zero]
  · rw [if_neg hw]
    by_cases hin : v + 1 ≤ w ∧ w < v + 1 + n
    · have hsub : pa + pgsize + (w - (v + 1)) * pgsize = pa + (w - v) * pgsize := by
        have hsucc : w - v = w - (v + 1) + 1 := by omega
        rw [hsucc, Nat.succ_mul]
        omega
      rw [if_pos hin, if_pos (by omega), hsub]
    · rw [if_neg hin, if_neg (by omega)]

/-- **The loop of `mappages`**: it ends, and the pages of its range are entered one after the
other. -/
theorem mapLoop_spec (hperm : perm < 2 ^ 10) (hleaf : perm &&& 14 ≠ 0) (k : ℕ) (hk : n < k)
    (hs : Sound root s.mem) (hmax : v + n < 2 ^ 26) (hpa : pgsize ∣ pa)
    (hnone : ∀ w, v ≤ w → w ≤ v + n → lookup s.mem root w = none)
    (hf : Fresh root s.mem (mapLoop root perm ((v + n) * pgsize) k (v * pgsize) pa s).trace) :
    ∃ r t s', Runs (mapLoop root perm ((v + n) * pgsize) k (v * pgsize) pa) s r t s' ∧
      Sound root s'.mem ∧
      ((r = 0 ∧ ∀ w < 2 ^ 26, lookup s'.mem root w =
          Mapping.extend (lookup s.mem root) v (n + 1) pa perm w) ∨
        r = -1 ∧ 0 ∈ t ∧ ∃ c ≤ n, ∀ w < 2 ^ 26, lookup s'.mem root w =
          Mapping.extend (lookup s.mem root) v c pa perm w) := by
  induction k generalizing s v n pa with
  | zero => omega
  | succ k ih =>
    obtain ⟨r₁, t₁, s₁, h₁⟩ := walk_total root (v * pgsize) true s
    have hva : v * pgsize < maxva := by
      simp only [maxva, pgsize]
      omega
    rw [mapLoop] at hf ⊢
    rw [h₁.trace_bind] at hf
    obtain ⟨hg, hfound⟩ := grows_walk hva hs h₁ hf.left
    have hf₁ := hf.right hg
    cases r₁ with
    | none =>
      refine ⟨-1, t₁, s₁, h₁.bind_iff.2 ⟨[], runs_pure.2 ⟨rfl, rfl, rfl⟩, ?_⟩, hg.sound,
        .inr ⟨rfl, walk_refused hva h₁, 0, Nat.zero_le n, fun w _ => ?_⟩⟩
      · rw [List.append_nil]
      · rw [extend_zero, hg.lookup]
    | some pi =>
      obtain ⟨p, i⟩ := pi
      obtain ⟨rfl, hp⟩ := hfound p i rfl
      -- the page was not mapped, so the entry is not valid
      have hinvalid : ¬ (s₁.mem p (px 0 (v * pgsize))).valid = true := by
        intro hv
        have hl := hg.sound.leaves _ _ (px 0 (v * pgsize)) (s₁.mem p (px 0 (v * pgsize)))
          (by rw [leaf, hp, Option.map_some]) hv
        have hunmapped := (hg.lookup v).trans (hnone v le_rfl (by omega))
        rw [lookup_of_page hp, if_pos hl] at hunmapped
        cases hunmapped
      let e := pa2pte pa ||| perm ||| 1
      let s₂ : State := { s₁ with mem := PageTree.set s₁.mem p (px 0 (v * pgsize)) e }
      have hs₂ : Sound root s₂.mem := hg.sound.set hp fun _ => isLeaf_entry hleaf
      have hlookup : ∀ w < 2 ^ 26, lookup s₂.mem root w =
          if w = v then some (pa, perm ||| 1) else lookup s.mem root w := by
        intro w hw
        rw [lookup_set hg.sound.separate hp (by omega) (by omega), if_pos (isLeaf_entry hleaf),
          decode_entry hpa hperm, hg.lookup]
      have hstore : Runs (store p (px 0 (v * pgsize)) e) s₁ () [] s₂ := modify_runs _ s₁
      dsimp only at hf₁ ⊢
      rw [(get_runs s₁).trace_bind, if_neg hinvalid, hstore.trace_bind, List.nil_append,
        List.nil_append] at hf₁
      by_cases hn : n = 0
      · subst hn
        refine ⟨0, t₁, s₂, h₁.bind_iff.2 ⟨[], ?_, (List.append_nil t₁).symm⟩, hs₂,
          .inl ⟨rfl, fun w hw => ?_⟩⟩
        · dsimp only
          rw [(get_runs s₁).silent_iff, if_neg hinvalid, hstore.silent_iff, if_pos (by simp)]
          exact runs_pure.2 ⟨rfl, rfl, rfl⟩
        · rw [← extend_succ (hlookup w hw), extend_zero]
      · have hne : v * pgsize ≠ (v + n) * pgsize := by
          simp only [pgsize]
          omega
        have hnext : v * pgsize + pgsize = (v + 1) * pgsize := (Nat.succ_mul v pgsize).symm
        have hlast : v + n = v + 1 + (n - 1) := by omega
        rw [if_neg hne, hnext, hlast] at hf₁
        obtain ⟨r, t, s', hrun, hs', hres⟩ := ih (by omega) hs₂ (by omega)
          (Nat.dvd_add hpa (Nat.dvd_refl _)) (fun w h₁ h₂ => by
            rw [hlookup w (by omega), if_neg (by omega)]
            exact hnone w (by omega) (by omega)) (hf₁.set hg.sound.separate hp)
        refine ⟨r, t₁ ++ t, s', h₁.bind_iff.2 ⟨t, ?_, rfl⟩, hs', ?_⟩
        · dsimp only
          rw [(get_runs s₁).silent_iff, if_neg hinvalid, hstore.silent_iff, if_neg hne, hnext,
            hlast]
          exact hrun
        · rcases hres with ⟨rfl, hres⟩ | ⟨rfl, hzero, c, hc, hres⟩
          · refine .inl ⟨rfl, fun w hw => ?_⟩
            rw [hres w hw, extend_succ (hlookup w hw), Nat.sub_add_cancel (by omega)]
          · refine .inr ⟨rfl, List.mem_append_right t₁ hzero, c + 1, by omega, fun w hw => ?_⟩
            rw [hres w hw, extend_succ (hlookup w hw)]

theorem pgrounddown_eq (a : ℕ) : pgrounddown a = a / pgsize * pgsize := by
  simp only [pgrounddown, pgsize]
  omega

/-- **`mappages`** returns, and enters its range or, if it was refused a page, the first pages of
it. -/
theorem mappages_spec {kend va size : ℕ} (hs : Sound root s.mem)
    (hok : Allowed kend root s (.mappages va size pa perm)) (hperm : perm < 2 ^ 10) :
    ∃ r t s', Runs (mappages root va size pa perm) s r t s' ∧ Sound root s'.mem ∧
      ∃ m, Effect (.mappages va size pa perm) (r, t) (lookup s.mem root) m ∧
        ∀ w < 2 ^ 26, lookup s'.mem root w = m w := by
  obtain ⟨hsize, hmax, hpa, -, hleaf, hnone, hf⟩ := hok
  have hpos : size ≠ 0 := by omega
  have hle : va / pgsize ≤ (va + size - 1) / pgsize := Nat.div_le_div_right (by omega)
  have hlast : (va + size - 1) / pgsize = va / pgsize +
      ((va + size - 1) / pgsize - va / pgsize) := by
    omega
  have hpages : pages va size = (va + size - 1) / pgsize - va / pgsize + 1 := rfl
  have hrange : (va + size - 1) / pgsize < 2 ^ 26 := by
    simp only [maxva, pgsize] at hmax ⊢
    omega
  have hfuel : (va + size - 1) / pgsize - va / pgsize < size := by
    simp only [pgsize]
    omega
  change Fresh root s.mem (mappages root va size pa perm s).trace at hf
  rw [mappages, if_neg hpos, pgrounddown_eq, pgrounddown_eq, hlast] at hf ⊢
  obtain ⟨r, t, s', hrun, hs', hres⟩ := mapLoop_spec hperm hleaf size hfuel hs (by omega) hpa
    (fun w h₁ h₂ => hnone w h₁ (by omega)) hf
  refine ⟨r, t, s', hrun, hs', ?_⟩
  rcases hres with ⟨rfl, hres⟩ | ⟨rfl, hzero, c, hc, hres⟩
  · exact ⟨_, .inl ⟨rfl, rfl⟩, hres⟩
  · exact ⟨_, .inr ⟨rfl, hzero, c, by omega, rfl⟩, hres⟩

end Map

/-! ### `uvmunmap` -/

section Unmap

variable {kend root : ℕ} {s s' : State} {doFree : Bool} {u : Unit} {v n f g : ℕ}

/-- The state after `kfree(pa)`. -/
def State.freed (s : State) (pa : ℕ) : State :=
  ⟨set (fill s.mem pa 0x0101010101010101) pa first s.freelist, pa⟩

theorem freed_of_ne {pa x : ℕ} (h : x ≠ pa) : (s.freed pa).mem x = s.mem x := by
  rw [State.freed]
  dsimp only
  rw [PageTree.set_of_ne h, PageTree.fill_of_ne h]

theorem pteFlags_ne_one {e : Pte} (h : isLeaf e = true) : pteFlags e ≠ 1 := by
  intro hone
  obtain ⟨-, hflags⟩ := Bool.and_eq_true_iff.1 h
  have hand : e &&& 14 = pteFlags e &&& 14 := by
    rw [pteFlags, Nat.and_assoc]
    rfl
  rw [hand, hone] at hflags
  cases hflags

/-- The entry of a page that is mapped. -/
theorem entry_of_lookup (h : lookup s.mem root v = some (f, g)) : ∃ p,
    page link s.mem root (.low (px 2 (v * pgsize)) (px 1 (v * pgsize))) = some p ∧
      isLeaf (s.mem p (px 0 (v * pgsize))) = true ∧ pte2pa (s.mem p (px 0 (v * pgsize))) = f := by
  cases hp : page link s.mem root (.low (px 2 (v * pgsize)) (px 1 (v * pgsize))) with
  | none =>
    rw [lookup, leaf, hp] at h
    cases h
  | some p =>
    rw [lookup_of_page hp] at h
    split_ifs at h with hl
    cases h
    exact ⟨p, rfl, hl, rfl⟩

/-- **One round of `uvmunmap`**: the page that is freed, if any, and the entry that is cleared. -/
theorem unmapPage_runs_iff {p : ℕ} {t : List ℕ} (hv : v < 2 ^ 26)
    (hp : page link s.mem root (.low (px 2 (v * pgsize)) (px 1 (v * pgsize))) = some p)
    (hleaf : isLeaf (s.mem p (px 0 (v * pgsize))) = true)
    (hf : pte2pa (s.mem p (px 0 (v * pgsize))) = f) :
    Runs (unmapPage kend root doFree (v * pgsize)) s u t s' ↔
      t = [] ∧ (doFree = false ∧ s' = { s with mem := set s.mem p (px 0 (v * pgsize)) 0 } ∨
        doFree = true ∧ kend ≤ f ∧ f < phystop ∧
          s' = { s.freed f with mem := set (s.freed f).mem p (px 0 (v * pgsize)) 0 }) := by
  have hva : v * pgsize < maxva := by
    simp only [maxva, pgsize]
    omega
  have hwalk : Runs (walk root (v * pgsize) false) s _ [] s := walk_runs hva
  rw [hp, Option.map_some] at hwalk
  have hvalid : ¬ (s.mem p (px 0 (v * pgsize))).valid = false := by
    simp [(Bool.and_eq_true_iff.1 hleaf).1]
  rw [unmapPage, hwalk.silent_iff]
  dsimp only
  rw [(get_runs s).silent_iff, if_neg hvalid, if_neg (pteFlags_ne_one hleaf), hf]
  cases doFree with
  | false =>
    rw [if_neg Bool.false_ne_true, store, runs_modify]
    simp
  | true =>
    have haligned : f % pgsize = 0 := by
      rw [← hf, pte2pa_eq, Nat.mul_mod_right]
    rw [if_pos rfl, kfree]
    by_cases hram : f % pgsize ≠ 0 ∨ f < kend ∨ phystop ≤ f
    · rw [if_pos hram]
      constructor
      · intro h
        obtain ⟨_, _, _, _, hfail, -, -⟩ := runs_bind.1 h
        exact absurd hfail not_runs_fail
      · rintro ⟨-, ⟨hfree, -⟩ | ⟨-, h₁, h₂, -⟩⟩
        · cases hfree
        · omega
    · rw [if_neg hram, (modify_runs _ s).silent_iff, store, runs_modify]
      have hbounds : kend ≤ f ∧ f < phystop := by omega
      simp [hbounds, State.freed]

/-- What one round of `uvmunmap` leaves. -/
theorem unmapPage_spec (hs : Sound root s.mem) (hv : v < 2 ^ 26)
    (hlookup : lookup s.mem root v = some (f, g))
    (hfree : doFree = true → ¬ InTree link s.mem root f)
    (h : Returns (unmapPage kend root doFree (v * pgsize)) s u s') :
    Sound root s'.mem ∧ page link s'.mem root = page link s.mem root ∧
      ∀ w < 2 ^ 26, lookup s'.mem root w = if w = v then none else lookup s.mem root w := by
  obtain ⟨p, hp, hleaf, hf⟩ := entry_of_lookup hlookup
  obtain ⟨t, hrun⟩ := h.runs
  -- the memory before the entry is cleared
  have hclear : ∀ mem : ℕ → Fin 512 → Pte, (∀ x, InTree link s.mem root x → mem x = s.mem x) →
      s'.mem = PageTree.set mem p (px 0 (v * pgsize)) 0 →
      Sound root s'.mem ∧ page link s'.mem root = page link s.mem root ∧
      ∀ w < 2 ^ 26, lookup s'.mem root w = if w = v then none else lookup s.mem root w := by
    intro mem hagree hmem
    have hpage := PageTree.page_of_agree hagree
    have hleaves : ∀ i j k, leaf link mem root i j k = leaf link s.mem root i j k :=
      fun i j k => PageTree.leaf_of_agree hagree
    have hsound : Sound root mem := by
      refine ⟨?_, fun i j k e he => hs.leaves i j k e (by rw [← hleaves, he])⟩
      unfold Separate
      rw [hpage]
      exact hs.separate
    have hp' : page link mem root (.low (px 2 (v * pgsize)) (px 1 (v * pgsize))) = some p := by
      rw [hpage, hp]
    rw [hmem]
    refine ⟨hsound.set hp' nofun, ?_, fun w hw => ?_⟩
    · rw [PageTree.page_set_leaf hsound.separate hp', hpage]
    · rw [lookup_set hsound.separate hp' (by omega) (by omega)]
      by_cases hwv : w = v
      · rw [if_pos hwv, if_pos hwv]
        rfl
      · rw [if_neg hwv, if_neg hwv]
        exact lookup_congr fun i j k => by rw [hleaves]
  rcases ((unmapPage_runs_iff hv hp hleaf hf).1 hrun).2 with ⟨-, rfl⟩ | ⟨hdo, -, -, rfl⟩
  · exact hclear s.mem (fun _ _ => rfl) rfl
  · refine hclear (s.freed f).mem (fun x hx => freed_of_ne ?_) rfl
    rintro rfl
    exact hfree hdo hx

/-- In the loop of `uvmunmap`, when `j` pages from page `v` on were removed from the table of
`s`. -/
structure Unmapping (root : ℕ) (s : State) (v j : ℕ) (s' : State) : Prop where
  sound : Sound root s'.mem
  page : page link s'.mem root = page link s.mem root
  lookup : ∀ w < 2 ^ 26, lookup s'.mem root w = Mapping.remove (lookup s.mem root) v j w

theorem Unmapping.start (hs : Sound root s.mem) : Unmapping root s v 0 s :=
  ⟨hs, rfl, fun _ _ => (if_neg (by omega)).symm⟩

/-- The next page is still as it was. -/
theorem Unmapping.lookup_next {j : ℕ} (h : Unmapping root s v j s') (hv : v + j < 2 ^ 26) :
    PageTables.lookup s'.mem root (v + j) = PageTables.lookup s.mem root (v + j) := by
  rw [h.lookup _ hv]
  exact if_neg (by omega)

theorem Unmapping.next {s'' : State} {j : ℕ} (h : Unmapping root s v j s') (hv : v + j < 2 ^ 26)
    (hfg : PageTables.lookup s.mem root (v + j) = some (f, g))
    (hfree : doFree = true → ¬ InTree link s.mem root f)
    (hr : Returns (unmapPage kend root doFree ((v + j) * pgsize)) s' u s'') :
    Unmapping root s v (j + 1) s'' := by
  have hfree' : doFree = true → ¬ InTree link s'.mem root f := by
    rintro hdo ⟨P, hP⟩
    rw [h.page] at hP
    exact hfree hdo ⟨P, hP⟩
  obtain ⟨hs, hpage, hlookup⟩ := unmapPage_spec h.sound hv ((h.lookup_next hv).trans hfg) hfree' hr
  refine ⟨hs, hpage.trans h.page, fun w hw => ?_⟩
  rw [hlookup w hw, h.lookup w hw]
  unfold Mapping.remove
  by_cases hwv : w = v + j
  · rw [if_pos hwv, if_pos (by omega)]
  · rw [if_neg hwv]
    by_cases hin : v ≤ w ∧ w < v + j
    · rw [if_pos hin, if_pos (by omega)]
    · rw [if_neg hin, if_neg (by omega)]

/-- The pages of a range that begins at a page. -/
theorem pages_of_range {va : ℕ} (haligned : va % pgsize = 0) (hmax : va + n * pgsize ≤ maxva) :
    (∀ j, va + j * pgsize = (va / pgsize + j) * pgsize) ∧ va / pgsize + n ≤ 2 ^ 26 := by
  simp only [maxva, pgsize] at haligned hmax ⊢
  exact ⟨fun j => by omega, by omega⟩

/-- **`uvmunmap`** removes its range. -/
theorem uvmunmap_spec {va : ℕ} (hs : Sound root s.mem)
    (hok : Allowed kend root s (.uvmunmap va n doFree))
    (hcare : Careful root s (.uvmunmap va n doFree))
    (h : Returns (uvmunmap kend root va n doFree) s u s') :
    Unmapping root s (va / pgsize) n s' := by
  obtain ⟨hmax, hmapped⟩ := hok
  rw [uvmunmap] at h
  split_ifs at h with haligned
  · exact absurd h not_returns_fail
  obtain ⟨hva, hrange⟩ := pages_of_range (by omega) hmax
  have hend : Unmapping root s (va / pgsize) (0 + n) s' := by
    refine forRange_inv (fun j => Unmapping root s (va / pgsize) j) (fun j s₁ s₂ _ hj hI hr => ?_)
      (.start hs) h
    rw [hva] at hr
    obtain ⟨⟨f, g⟩, hfg⟩ := Option.ne_none_iff_exists'.1
      (hmapped (va / pgsize + j) (by omega) (by omega))
    refine hI.next (by omega) hfg ?_ hr
    rintro rfl
    exact hcare _ (by omega) (by omega) f g hfg
  rwa [Nat.zero_add] at hend

/-- `uvmunmap` returns if its range begins at a page and the frames that it frees are pages of
RAM. -/
theorem uvmunmap_returns {va : ℕ} (hs : Sound root s.mem)
    (hok : Allowed kend root s (.uvmunmap va n doFree))
    (hcare : Careful root s (.uvmunmap va n doFree))
    (haligned : va % pgsize = 0) (hram : doFree = true → ∀ v f g, va / pgsize ≤ v →
      v < va / pgsize + n → lookup s.mem root v = some (f, g) → kend ≤ f ∧ f < phystop) :
    ∃ s', Returns (uvmunmap kend root va n doFree) s () s' := by
  obtain ⟨hmax, hmapped⟩ := hok
  obtain ⟨hva, hrange⟩ := pages_of_range (by omega) hmax
  have hloop : ∃ s',
      Returns (forRange (fun i => unmapPage kend root doFree (va + i * pgsize)) 0 n) s
      () s' ∧ Unmapping root s (va / pgsize) (0 + n) s' := by
    refine forRange_returns (fun j => Unmapping root s (va / pgsize) j) (fun j s₁ _ hj hI => ?_)
      (.start hs)
    obtain ⟨⟨f, g⟩, hfg⟩ := Option.ne_none_iff_exists'.1
      (hmapped (va / pgsize + j) (by omega) (by omega))
    have hv : va / pgsize + j < 2 ^ 26 := by omega
    obtain ⟨p, hp, hleaf, hf⟩ := entry_of_lookup ((hI.lookup_next hv).trans hfg)
    have hfree : doFree = true → ¬ InTree link s.mem root f := by
      rintro rfl
      exact hcare _ (by omega) (by omega) f g hfg
    have hreturns : ∃ s₂, Returns (unmapPage kend root doFree ((va / pgsize + j) * pgsize)) s₁
        () s₂ := by
      cases doFree with
      | false => exact ⟨_, ((unmapPage_runs_iff hv hp hleaf hf).2 ⟨rfl, .inl ⟨rfl, rfl⟩⟩).returns⟩
      | true =>
        obtain ⟨h₁, h₂⟩ := hram rfl _ f g (by omega) (by omega) hfg
        exact ⟨_, ((unmapPage_runs_iff hv hp hleaf hf).2 ⟨rfl, .inr ⟨rfl, h₁, h₂, rfl⟩⟩).returns⟩
    obtain ⟨s₂, hr⟩ := hreturns
    rw [hva]
    exact ⟨s₂, hr, hI.next hv hfg hfree hr⟩
  obtain ⟨s', hr, -⟩ := hloop
  rw [uvmunmap, if_neg (by omega)]
  exact ⟨s', hr⟩

end Unmap

/-! ### Runs -/

section Runs

variable {kend root : ℕ} {s s' z s₀ : State} {l : List (Action × ℤ × List ℕ)}

/-- A new table is empty. -/
theorem uvmcreate_spec (h : Returns uvmcreate z root s₀) (hroot : root ≠ 0) :
    Sound root s₀.mem ∧ (∀ v, lookup s₀.mem root v = none) ∧
      ∀ x, InTree link s₀.mem root x → x = root := by
  obtain ⟨p, s₁, -, hrest⟩ := returns_bind.1 h
  split_ifs at hrest with hp
  · exact absurd (returns_pure.1 hrest).1 hroot
  obtain ⟨_, s₂, hclear, hpure⟩ := returns_bind.1 hrest
  obtain ⟨rfl, rfl⟩ := returns_pure.1 hpure
  obtain rfl := returns_modify.1 hclear
  have hzero : ∀ i, link (fill s₁.mem root 0 root i) = none := by
    intro i
    rw [PageTree.fill_self]
    exact link_zero
  have hpage : ∀ P x, page link (fill s₁.mem root 0) root P = some x → P = .root := by
    intro P x hx
    cases P with
    | root => rfl
    | mid i =>
      rw [page, hzero] at hx
      cases hx
    | low i j =>
      rw [page, hzero] at hx
      cases hx
  have hleaf : ∀ i j k, leaf link (fill s₁.mem root 0) root i j k = none := by
    intro i j k
    rw [leaf, page, hzero]
    rfl
  refine ⟨⟨fun P Q x hP hQ => (hpage P x hP).trans (hpage Q x hQ).symm, fun i j k e he => ?_⟩,
    fun v => ?_, ?_⟩
  · rw [hleaf] at he
    cases he
  · rw [lookup, hleaf]
    rfl
  · rintro x ⟨P, hP⟩
    obtain rfl := hpage P x hP
    exact (Option.some.inj hP).symm

/-- **One call**: the table stays sound, and changes as the map does. -/
theorem step_spec {a : Action} {r : ℤ} {t : List ℕ} (hs : Sound root s.mem)
    (hok : Allowed kend root s a) (hcare : Careful root s a)
    (h : Runs (step kend root a) s r t s') :
    Sound root s'.mem ∧ ∃ m, Effect a (r, t) (lookup s.mem root) m ∧
      ∀ w < 2 ^ 26, lookup s'.mem root w = m w := by
  cases a with
  | mappages va size pa perm =>
    obtain ⟨r', t', s₁, hrun, hs₁, m, hm, hlookup⟩ := mappages_spec hs hok hcare
    cases hrun.symm.trans h
    exact ⟨hs₁, m, hm, hlookup⟩
  | uvmunmap va n doFree =>
    obtain ⟨_, s₁, hun, hpure⟩ := returns_bind.1 h.returns
    obtain ⟨-, rfl⟩ := returns_pure.1 hpure
    have hend := uvmunmap_spec hs hok hcare hun
    exact ⟨hend.sound, _, rfl, hend.lookup⟩
  | elsewhere mem freelist =>
    obtain ⟨_, s₁, hmod, hpure⟩ := returns_bind.1 h.returns
    obtain ⟨-, rfl⟩ := returns_pure.1 hpure
    obtain rfl := returns_modify.1 hmod
    have hleaf : ∀ i j k, leaf link mem root i j k = leaf link s.mem root i j k :=
      fun i j k => PageTree.leaf_of_agree hok
    refine ⟨⟨?_, fun i j k e he => hs.leaves i j k e (by rw [← hleaf, he])⟩, _, rfl, fun w _ => ?_⟩
    · unfold Separate
      rw [PageTree.page_of_agree hok]
      exact hs.separate
    · exact lookup_congr fun i j k => by rw [hleaf]

theorem Effect.congr {a : Action} {r : ℤ × List ℕ} {m m₁ m' : Mapping} (h : Effect a r m m')
    (hm : ∀ w < 2 ^ 26, m w = m₁ w) : ∃ m₁', Effect a r m₁ m₁' ∧ ∀ w < 2 ^ 26, m' w = m₁' w := by
  have hextend : ∀ v n pa perm, ∀ w < 2 ^ 26,
      m.extend v n pa perm w = m₁.extend v n pa perm w := by
    intro v n pa perm w hw
    simp only [Mapping.extend, hm w hw]
  cases a with
  | mappages va size pa perm =>
    obtain ⟨r, t⟩ := r
    rcases h with ⟨rfl, rfl⟩ | ⟨rfl, ht, k, hk, rfl⟩
    · exact ⟨_, .inl ⟨rfl, rfl⟩, hextend _ _ _ _⟩
    · exact ⟨_, .inr ⟨rfl, ht, k, hk, rfl⟩, hextend _ _ _ _⟩
  | uvmunmap va n doFree =>
    refine ⟨_, rfl, fun w hw => ?_⟩
    rw [show m' = m.remove (va / pgsize) n from h]
    simp only [Mapping.remove, hm w hw]
  | elsewhere mem freelist =>
    refine ⟨m₁, rfl, fun w hw => ?_⟩
    rw [show m' = m from h, hm w hw]

/-- The table along a run. -/
theorem sound_run (hcreate : Returns uvmcreate z root s₀) (hroot : root ≠ 0)
    (hr : LogReach (fun a => traced (step kend root a))
      (fun s a => Allowed kend root s a ∧ Careful root s a) s₀ l s) :
    Sound root s.mem ∧ ∃ m, Maps l m ∧ ∀ v < 2 ^ 26, lookup s.mem root v = m v := by
  obtain ⟨hs₀, hempty, -⟩ := uvmcreate_spec hcreate hroot
  refine hr.inv (fun l s => Sound root s.mem ∧ ∃ m, Maps l m ∧
    ∀ v < 2 ^ 26, lookup s.mem root v = m v) ⟨hs₀, _, .start, fun v _ => hempty v⟩ ?_
  rintro l s a ⟨r, t⟩ s' ⟨hs, m, hm, hlookup⟩ ⟨hok, hcare⟩ hret
  obtain ⟨hs', m', heff, hlookup'⟩ := step_spec hs hok hcare (returns_traced.1 hret)
  obtain ⟨m₁, heff₁, hm₁⟩ := heff.congr hlookup
  exact ⟨hs', m₁, hm.next heff₁, fun v hv => (hlookup' v hv).trans (hm₁ v hv)⟩

/-- **A page table is a map from pages to frames**: after every history of calls, `walk` finds
exactly the pages that are mapped, with the frames and permissions they were given; each call
changes the map in its own range only. -/
theorem page_table_is_map :
    IsMap fun kend root s a => Allowed kend root s a ∧ Careful root s a := by
  intro kend root z s₀ l s hcreate hroot hr
  obtain ⟨-, m, hm, hlookup⟩ := sound_run hcreate hroot hr
  exact ⟨m, hm, shows_of_lookup hlookup⟩

/-- The range of `uvmunmap` begins at a page, and the frames that it frees are pages of RAM. -/
def Freeable (kend root : ℕ) (s : State) (a : Action) : Prop :=
  ∀ va n doFree, a = .uvmunmap va n doFree → va % pgsize = 0 ∧ (doFree = true →
    ∀ v f g, va / pgsize ≤ v → v < va / pgsize + n → lookup s.mem root v = some (f, g) →
      kend ≤ f ∧ f < phystop)

/-- **The calls return.** -/
theorem calls_return {a : Action} (hs : Sound root s.mem) (hok : Allowed kend root s a)
    (hcare : Careful root s a) (hfree : Freeable kend root s a) :
    ∃ r s', Returns (step kend root a) s r s' := by
  cases a with
  | mappages va size pa perm =>
    obtain ⟨r, t, s', hrun, -⟩ := mappages_spec hs hok hcare
    exact ⟨r, s', hrun.returns⟩
  | uvmunmap va n doFree =>
    obtain ⟨haligned, hram⟩ := hfree va n doFree rfl
    obtain ⟨s', hr⟩ := uvmunmap_returns hs hok hcare haligned hram
    exact ⟨0, s', returns_bind.2 ⟨(), s', hr, returns_pure.2 ⟨rfl, rfl⟩⟩⟩
  | elsewhere mem freelist =>
    exact ⟨0, _, returns_bind.2 ⟨(), _, returns_modify.2 rfl, returns_pure.2 ⟨rfl, rfl⟩⟩⟩

/-- The tree of `AddressSpace.lean` that the memory holds. -/
def tree (mem : ℕ → Fin 512 → Pte) (root : ℕ) : PageTable := fun i =>
  (link (mem root i)).map fun p j => (link (mem p j)).map fun q => mem q

/-- **The lookup of `AddressSpace.lean`** finds the same entries. -/
theorem tree_lookup {mem : ℕ → Fin 512 → Pte} {va : ℕ} (hva : va < maxva) :
    RaidSystem.walk (tree mem root) va = leaf link mem root (px 2 va) (px 1 va) (px 0 va) := by
  rw [RaidSystem.walk, if_neg (by omega), leaf, page, tree]
  cases h₁ : link (mem root (px 2 va)) with
  | none => rfl
  | some p =>
    rw [Option.map_some, Option.bind_some]
    dsimp only
    cases h₂ : link (mem p (px 1 va)) with
    | none => rfl
    | some q => rfl

/-- The frame of page `v` for user accesses, or `0`. -/
def Mapping.userFrame (m : Mapping) (v : ℕ) : ℕ :=
  match m v with
  | some (f, g) => if g.testBit 4 then f else 0
  | none => 0

/-- **The translation of user addresses** is that of the map. -/
theorem walkaddr_tree {va : ℕ} (hs : Sound root s.mem) (hva : va < maxva) :
    walkaddr (tree s.mem root) va = Mapping.userFrame (lookup s.mem root) (va / pgsize) := by
  rw [walkaddr, if_neg (by omega), tree_lookup hva, Mapping.userFrame, lookup, px_of_div, px_of_div,
    px_of_div]
  cases hleaf : leaf link s.mem root (px 2 va) (px 1 va) (px 0 va) with
  | none => rfl
  | some e =>
    cases hv : e.valid with
    | false => simp [Option.filter, isLeaf, hv]
    | true =>
      have huser : (pteFlags e).testBit 4 = e.user := by
        rw [pteFlags, Nat.testBit_and]
        exact Bool.and_true _
      rw [Option.filter_some_pos (hs.leaves _ _ _ e hleaf hv)]
      cases hu : e.user <;> simp [huser, hu, hv, decode]

/-- **A table serves its users**: along every run, user addresses are translated by the map that the
history stands for, and no call panics. -/
theorem table_serves (hcreate : Returns uvmcreate z root s₀) (hroot : root ≠ 0)
    (hr : LogReach (fun a => traced (step kend root a))
      (fun s a => Allowed kend root s a ∧ Careful root s a) s₀ l s) :
    (∃ m, Maps l m ∧ ∀ va < maxva, walkaddr (tree s.mem root) va = m.userFrame (va / pgsize)) ∧
      ∀ a, Allowed kend root s a → Careful root s a → Freeable kend root s a →
        ∃ r s', Returns (step kend root a) s r s' := by
  obtain ⟨hs, m, hm, hlookup⟩ := sound_run hcreate hroot hr
  refine ⟨⟨m, hm, fun va hva => ?_⟩, fun a hok hcare hfree => calls_return hs hok hcare hfree⟩
  have hpage : va / pgsize < 2 ^ 26 := by
    simp only [maxva, pgsize] at hva ⊢
    omega
  rw [walkaddr_tree hs hva, Mapping.userFrame, Mapping.userFrame, hlookup _ hpage]

end Runs

/-! ### Two runs -/

section Examples

/-- Free pages from `0x80100000` on, each with the next one as its first word. -/
def fewPages : State := ⟨fun p i => if i.val = 0 then p + pgsize else 0, 0x80100000⟩

/-- The state after the calls in order, which are assumed to return. -/
def after (cs : List Action) : State :=
  cs.foldl (fun s a => (step 0x80000000 0x80100000 a s).state) (uvmcreate fewPages).state

/-- Two pages are mapped for the user, and the second one is removed. -/
def mapUser : Action := .mappages 0x1000 0x2000 0x80200000 0x16

def unmapSecond : Action := .uvmunmap 0x2000 1 false

/-- A page is mapped; so is the page of the table that holds its entry. -/
def mapFirst : Action := .mappages 0x1000 0x1000 0x80200000 2

def mapTable : Action := .mappages 0x2000 0x1000 0x80102000 2

def freeTable : Action := .uvmunmap 0x2000 1 true

theorem after_create : Returns uvmcreate fewPages 0x80100000 (after []) := ⟨rfl, rfl⟩

/-- The next call. -/
theorem after_step (cs : List Action) (a : Action) {r : ℤ × List ℕ}
    (h : (traced (step 0x80000000 0x80100000 a) (after cs)).val.toOption = some r) :
    Returns (traced (step 0x80000000 0x80100000 a)) (after cs) r (after (cs ++ [a])) := by
  obtain ⟨hval, hstate⟩ := returns_of_eval h
  refine ⟨hval, hstate.trans ?_⟩
  rw [traced_state, after, after, List.foldl_append]
  rfl

/-- The first call takes two pages for the table. -/
theorem allowed_first {va size pa perm : ℕ} (hsize : 0 < size) (hmax : va + size ≤ maxva)
    (hpa : pgsize ∣ pa) (hlow : pa < 2 ^ 56) (hleaf : perm &&& 14 ≠ 0)
    (htrace : (step 0x80000000 0x80100000 (.mappages va size pa perm) (after [])).trace =
      [0x80101000, 0x80102000]) :
    Allowed 0x80000000 0x80100000 (after []) (.mappages va size pa perm) := by
  obtain ⟨-, hempty, hroot⟩ := uvmcreate_spec after_create (by decide)
  refine ⟨hsize, hmax, hpa, hlow, hleaf, fun v _ _ => hempty v, ?_⟩
  rw [htrace]
  refine ⟨by decide, by decide, fun p hp _ hin => ?_⟩
  rw [hroot p hin] at hp
  revert hp
  decide

theorem used_run : LogReach (fun a => traced (step 0x80000000 0x80100000 a))
    (fun s a => Allowed 0x80000000 0x80100000 s a ∧ Careful 0x80100000 s a) (after [])
    [(unmapSecond, 0, []), (mapUser, 0, [0x80101000, 0x80102000])]
      (after [mapUser, unmapSecond]) := by
  have hmap : Allowed 0x80000000 0x80100000 (after []) mapUser :=
    allowed_first (by decide) (by decide) (by decide) (by decide) (by decide) (by decide +kernel)
  have hcare : Careful 0x80100000 (after []) mapUser := by
    change 0x16 < 2 ^ 10
    decide
  have hunmap : Allowed 0x80000000 0x80100000 (after [mapUser]) unmapSecond := by
    refine ⟨by decide, fun v h₁ h₂ => ?_⟩
    obtain rfl : v = 2 := Nat.le_antisymm (Nat.le_of_lt_succ h₂) h₁
    decide +kernel
  refine .next (.next .start ⟨hmap, hcare⟩ ?_) ⟨hunmap, trivial⟩ ?_
  · exact after_step [] mapUser (by decide +kernel)
  · exact after_step [mapUser] unmapSecond (by decide +kernel)

/-- One user page is left. -/
theorem table_serves_user :
    (∃ m, Maps [(unmapSecond, 0, []), (mapUser, 0, [0x80101000, 0x80102000])] m ∧ ∀ va < maxva,
      walkaddr (tree (after [mapUser, unmapSecond]).mem 0x80100000) va =
        m.userFrame (va / pgsize)) ∧
    (∀ a, Allowed 0x80000000 0x80100000 (after [mapUser, unmapSecond]) a →
      Careful 0x80100000 (after [mapUser, unmapSecond]) a →
      Freeable 0x80000000 0x80100000 (after [mapUser, unmapSecond]) a →
        ∃ r s', Returns (step 0x80000000 0x80100000 a) (after [mapUser, unmapSecond]) r s') ∧
    walkaddr (tree (after [mapUser, unmapSecond]).mem 0x80100000) 0x1000 = 0x80200000 ∧
    walkaddr (tree (after [mapUser, unmapSecond]).mem 0x80100000) 0x2000 = 0 := by
  obtain ⟨hmap, hreturn⟩ := table_serves after_create (by decide) used_run
  exact ⟨hmap, hreturn, by decide +kernel, by decide +kernel⟩

/-- The map after this run. -/
theorem page_table_is_map_user :
    ∃ m, Maps [(unmapSecond, 0, []), (mapUser, 0, [0x80101000, 0x80102000])] m ∧
    Shows 0x80100000 (after [mapUser, unmapSecond]) m ∧ m 1 = some (0x80200000, 0x17) ∧
      m 2 = none := by
  obtain ⟨m, hm, hshows⟩ :=
    page_table_is_map 0x80000000 0x80100000 fewPages (after []) _ _ after_create
    (by decide) used_run
  refine ⟨m, hm, hshows, ?_, ?_⟩
  · have hlookup : lookup (after [mapUser, unmapSecond]).mem 0x80100000 (0x1000 / pgsize) =
        some (0x80200000, 0x17) := by decide +kernel
    obtain ⟨e, he, hdecode⟩ := (walk_lookup (by decide) _).1 hlookup
    rw [← hdecode]
    exact (hshows 0x1000 (by decide)).1 e he
  · rw [Option.eq_none_iff_forall_ne_some]
    intro x hx
    have hlookup := (walk_lookup (by decide) x).2 ((hshows 0x2000 (by decide)).2 x hx)
    revert hlookup
    have hnone : lookup (after [mapUser, unmapSecond]).mem 0x80100000 (0x2000 / pgsize) = none := by
      decide +kernel
    rw [hnone]
    exact nofun

theorem freed_run : LogReach (fun a => traced (step 0x80000000 0x80100000 a))
    (Allowed 0x80000000 0x80100000) (after [])
    [(freeTable, 0, []), (mapTable, 0, []), (mapFirst, 0, [0x80101000, 0x80102000])]
    (after [mapFirst, mapTable, freeTable]) := by
  have hfirst : Allowed 0x80000000 0x80100000 (after []) mapFirst :=
    allowed_first (by decide) (by decide) (by decide) (by decide) (by decide) (by decide +kernel)
  have htrace : (step 0x80000000 0x80100000 mapTable (after [mapFirst])).trace = [] := by
    decide +kernel
  have htable : Allowed 0x80000000 0x80100000 (after [mapFirst]) mapTable := by
    refine ⟨by decide, by decide, by decide, by decide, by decide, fun v h₁ h₂ => ?_, ?_⟩
    · obtain rfl : v = 2 := Nat.le_antisymm (Nat.le_of_lt_succ h₂) h₁
      decide +kernel
    · rw [htrace]
      exact .nil
  have hfree : Allowed 0x80000000 0x80100000 (after [mapFirst, mapTable]) freeTable := by
    refine ⟨by decide, fun v h₁ h₂ => ?_⟩
    obtain rfl : v = 2 := Nat.le_antisymm (Nat.le_of_lt_succ h₂) h₁
    decide +kernel
  exact ((LogReach.start.next hfirst (after_step [] mapFirst (by decide +kernel))).next htable
    (after_step [mapFirst] mapTable (by decide +kernel))).next hfree
    (after_step [mapFirst, mapTable] freeTable (by decide +kernel))

/-- **A table page that is freed**: page 1 is mapped, then page 2 to the page of the table that
holds the entries of both; when page 2 is unmapped and its frame is freed, page 1 is lost. -/
theorem freed_table_page : ¬ IsMap Allowed := by
  intro h
  obtain ⟨m, hm, hshows⟩ := h 0x80000000 0x80100000 fewPages (after []) _ _ after_create (by decide)
    freed_run
  have hone : m 1 = some (0x80200000, 3) := by
    cases hm with
    | next hm ha =>
      cases hm with
      | next hm hb =>
        cases hm with
        | next hm hc =>
          cases hm
          rcases hc with ⟨-, rfl⟩ | ⟨hr, -⟩
          · rcases hb with ⟨-, rfl⟩ | ⟨hr, -⟩
            · cases ha
              decide
            · cases hr
          · cases hr
  obtain ⟨e, he, hdecode⟩ := (hshows 0x1000 (by decide)).2 _ hone
  have hlookup := (walk_lookup (by decide) _).2 ⟨e, he, hdecode⟩
  revert hlookup
  decide +kernel

end Examples

end RaidSystem.PageTables
