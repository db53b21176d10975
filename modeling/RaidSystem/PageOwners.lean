/-
**Who has the pages: `kernel/kalloc.c` and the page tables of `kernel/vm.c`.**

`PageTables.lean` follows one table and leaves open where its pages come from.  Here a page is on
the free list, or in the table, or the frame of a user page, or it is not the concern of the call,
and never two of these: `Owners` is a function.  Each function of the source then comes with the
change that it makes to the owners.  The functions are those of `PageTables.lean`, of whose accesses
only those are kept where `kalloc` returned `0`, and `freewalk`.

What this says about freeing a table: `freewalk` panics at an entry that maps something, so before
it runs exactly the right entries must have been removed; then it returns every page of the table to
the free list, and no other page.

* `Heap` — the free list holds the free pages, all of them in memory;
* `Tree` — the pages of a table by their places in it, and the map that it holds;
* `kalloc_owns`, `kfree_owns` — one page changes hands;
* `walk_owns`, `mappages_owns` — **mapping a page**, also when there is no page for the table;
* `uvmunmap_frees`, `uvmunmap_keeps` — unmapping, with and without giving back the frames;
* `freewalk_owns` — **all pages of an empty table are given back**.
-/

import RaidSystem.PageTables
import RaidSystem.PointerChain
import RaidSystem.TraceFilter

set_option autoImplicit false

namespace RaidSystem.Vm

open Prog Function
open PageTree (page leaf InTree Separate set fill grow)
open PageTables (State link first pa2pte pteFlags isLeaf decode lookup Mapping)

/-! ### The functions -/

/-- `kalloc` found no free page; `exec` went to its label `bad`. -/
inductive Event
  | refused
  | bad
deriving DecidableEq

/-- The panics, a store outside of an array, and a loop that does not end. -/
inductive Fault
  | table (e : PageTables.Fault)
  | freewalkLeaf
  | uvmcopyPte
  | uvmcopyPresent
  | uvmclear
  | loadseg
  | filedup
  | ustack
  | looping
deriving DecidableEq

abbrev Kernel := Prog State Event Fault

/-- A function of `PageTables.lean` that takes no pages. -/
def lift {α : Type} (x : PageTables.Kernel α) : Kernel α :=
  filterTrace (fun _ => none) (within id (fun _ s => s) .table x)

/-- What is recorded of `kalloc`. -/
def refusal (p : ℕ) : Option Event := if p = 0 then some .refused else none

/-- A function of `PageTables.lean` that may be refused a page. -/
def refusing {α : Type} (x : PageTables.Kernel α) : Kernel α :=
  filterTrace refusal (within id (fun _ s => s) .table x)

def kalloc : Kernel ℕ := refusing PageTables.kalloc

def kfree (kend pa : ℕ) : Kernel Unit := lift (PageTables.kfree kend pa)

/-- `memset(p, 0, PGSIZE)`. -/
def clear (p : ℕ) : Kernel Unit := lift (PageTables.clear p)

/-- `*pte = e`. -/
def store (p : ℕ) (i : Fin 512) (e : Pte) : Kernel Unit := lift (PageTables.store p i e)

def walk (pagetable va : ℕ) (alloc : Bool) : Kernel (Option (ℕ × Fin 512)) :=
  refusing (PageTables.walk pagetable va alloc)

def mappages (pagetable va size pa perm : ℕ) : Kernel ℤ :=
  refusing (PageTables.mappages pagetable va size pa perm)

def uvmunmap (kend pagetable va npages : ℕ) (doFree : Bool) : Kernel Unit :=
  lift (PageTables.uvmunmap kend pagetable va npages doFree)

def uvmcreate : Kernel ℕ := refusing PageTables.uvmcreate

/-- The index of an entry. -/
def index (i : ℕ) : Fin 512 := ⟨i % 512, Nat.mod_lt i (by decide)⟩

/-- `freewalk(pagetable)`, with a bound on the depth. -/
def freewalk (kend : ℕ) : ℕ → ℕ → Kernel Unit
  | 0, _ => fail .looping
  | k + 1, pagetable => do
    forRange (fun i => do
      let s ← get
      let pte := s.mem pagetable (index i)
      if pte.valid ∧ pte &&& 14 = 0 then do
        freewalk kend k (pte2pa pte)
        store pagetable (index i) 0
      else if pte.valid then fail .freewalkLeaf
      else pure ()) 0 512
    kfree kend pagetable

section Lift

variable {α : Type} {x : PageTables.Kernel α} {s : State} {E : Fault → Prop}
  {Q : α → List Event → State → Prop}

theorem ends_lift :
    Ends E (lift x) s Q ↔ Ends (fun e => E (.table e)) x s fun a _ s' => Q a [] s' := by
  rw [lift, ends_filterTrace, ends_within]
  simp only [id, List.filterMap_none]

/-- The refusals among what `kalloc` returned. -/
def refusals (t : List ℕ) : List Event := t.filterMap refusal

@[simp] theorem refusals_nil : refusals [] = [] := rfl

@[simp] theorem refusals_append (t t' : List ℕ) : refusals (t ++ t') = refusals t ++ refusals t' :=
  List.filterMap_append

theorem refusals_page {p : ℕ} (hp : p ≠ 0) : refusals [p] = [] :=
  List.filterMap_cons_none (if_neg hp)

theorem ends_refusing :
    Ends E (refusing x) s Q ↔ Ends (fun e => E (.table e)) x s fun a t s' =>
      Q a (refusals t) s' := by
  rw [refusing, ends_filterTrace, ends_within]
  rfl

end Lift

/-! ### Owners -/

/-- What a page of memory is in use for: it is on the free list, or a page of the table, or the
frame of user page `v`, or taken and not put to use yet; all other pages are not the concern of a
call. -/
inductive Owner
  | other
  | free
  | held
  | table (P : TreePath (Fin 512))
  | frame (v : ℕ)
deriving DecidableEq

abbrev Owners := ℕ → Owner

/-- The free list consists of the pages that are free, and the pages that are not left to others are
pages of RAM. -/
structure Heap (kend : ℕ) (own : Owners) (s : State) : Prop where
  free : ∃ l : List ℕ, PointerChain (fun p => s.mem p first) 0 s.freelist l ∧ ∀ x, x ∈ l ↔
    own x = .free
  page : ∀ x, own x ≠ .other → pgsize ∣ x ∧ kend ≤ x ∧ x < phystop

section Heap

variable {kend : ℕ} {own own' : Owners} {s s' : State} {o : Owner} {p : ℕ}

theorem Heap.first_free (h : Heap kend own s) (hs : s.freelist ≠ 0) : own s.freelist = .free := by
  obtain ⟨l, hl, hfree⟩ := h.free
  obtain ⟨l', rfl, -⟩ := hl.eq_cons hs
  exact (hfree _).1 List.mem_cons_self

/-- The first free page is taken. -/
theorem Heap.take (h : Heap kend own s) (hs : s.freelist ≠ 0) (ho : o ≠ .free)
    (hlist : s'.freelist = s.mem s.freelist first)
    (hmem : ∀ x, own x = .free → x ≠ s.freelist → s'.mem x = s.mem x) :
    Heap kend (update own s.freelist o) s' := by
  have hpage := h.page s.freelist (by rw [h.first_free hs]; exact nofun)
  obtain ⟨l, hl, hfree⟩ := h.free
  obtain ⟨l', rfl, hl'⟩ := hl.eq_cons hs
  obtain ⟨hnot, -⟩ := List.nodup_cons.1 hl.nodup
  have hne : ∀ x ∈ l', x ≠ s.freelist := fun x hx heq => hnot (heq ▸ hx)
  refine ⟨⟨l', ?_, fun x => ?_⟩, fun x hx => ?_⟩
  · rw [hlist]
    refine hl'.congr fun x hx => ?_
    rw [hmem x ((hfree x).1 (List.mem_cons_of_mem _ hx)) (hne x hx)]
  · rcases eq_or_ne x s.freelist with rfl | hx
    · rw [update_self]
      exact ⟨fun hmem' => absurd hmem' hnot, fun hfree' => absurd hfree' ho⟩
    · rw [update_of_ne hx, ← hfree x, List.mem_cons]
      exact ⟨.inr, fun h => h.resolve_left hx⟩
  · rcases eq_or_ne x s.freelist with rfl | hne'
    · exact hpage
    · rw [update_of_ne hne'] at hx
      exact h.page x hx

/-- `kfree` puts a page in front of the free list. -/
theorem Heap.give (h : Heap kend own s) (hkend : 0 < kend) (hp : own p ≠ .other)
    (hfree : own p ≠ .free) :
    Heap kend (update own p .free) (s.freed p) := by
  have hpage := h.page p hp
  have hzero : p ≠ 0 := by omega
  obtain ⟨l, hl, hmem⟩ := h.free
  have hnext : (s.freed p).mem p first = s.freelist := by
    rw [State.freed]
    dsimp only
    rw [PageTree.set_self, update_self]
  refine ⟨⟨p :: l, .cons hzero ?_, fun x => ?_⟩, fun x hx => ?_⟩
  · change PointerChain _ 0 ((s.freed p).mem p first) l
    rw [hnext]
    refine hl.congr fun x hx => ?_
    have hne : x ≠ p := by
      rintro rfl
      exact hfree ((hmem x).1 hx)
    rw [PageTables.freed_of_ne hne]
  · rcases eq_or_ne x p with rfl | hx
    · rw [update_self]
      exact ⟨fun _ => rfl, fun _ => List.mem_cons_self⟩
    · rw [update_of_ne hx, ← hmem x, List.mem_cons]
      exact ⟨fun h => h.resolve_left hx, .inr⟩
  · rcases eq_or_ne x p with rfl | hne
    · exact hpage
    · rw [update_of_ne hne] at hx
      exact h.page x hx

/-- Only the free pages matter. -/
theorem Heap.congr (h : Heap kend own s) (hfree : ∀ x, own' x = .free ↔ own x = .free)
    (hother : ∀ x, own x = .other → own' x = .other) (hlist : s'.freelist = s.freelist)
    (hmem : ∀ x, own x = .free → s'.mem x = s.mem x) : Heap kend own' s' := by
  obtain ⟨l, hl, hown⟩ := h.free
  refine ⟨⟨l, ?_, fun x => by rw [hown, hfree]⟩, fun x hx => h.page x fun ho => hx (hother x ho)⟩
  rw [hlist]
  exact hl.congr fun x hx => by rw [hmem x ((hown x).1 hx)]

end Heap

/-! ### Tables -/

/-- The table with this root: its pages and their owners, and its map.  The valid entries of the
upper levels are links, and those of the lowest level are leaf entries. -/
structure Tree (own : Owners) (root : ℕ) (m : Mapping) (s : State) : Prop where
  pages : ∀ x P, own x = .table P ↔ page link s.mem root P = some x
  inner : ∀ x P i, own x = .table P → (∀ j k, P ≠ .low j k) → (s.mem x i).valid = true →
    s.mem x i &&& 14 = 0
  leaves : ∀ i j k e, leaf link s.mem root i j k = some e → e.valid = true → isLeaf e = true
  map : ∀ v < 2 ^ 27, lookup s.mem root v = m v

section Tree

variable {kend root p q : ℕ} {own own' : Owners} {m : Mapping} {s s' : State}
  {M N : TreePath (Fin 512)} {i : Fin 512}

theorem Tree.separate (h : Tree own root m s) : Separate link s.mem root := by
  intro P Q x hP hQ
  rw [← h.pages] at hP hQ
  exact Owner.table.inj (hP.symm.trans hQ)

theorem Tree.not_inTree (h : Tree own root m s) (hp : ∀ P, own p ≠ .table P) :
    ¬ InTree link s.mem root p := by
  rintro ⟨P, hP⟩
  exact hp P ((h.pages p P).2 hP)

/-- Only the pages of the table matter. -/
theorem Tree.congr (h : Tree own root m s) (hown : ∀ x P, own' x = .table P ↔ own x = .table P)
    (hmem : ∀ x P, own x = .table P → s'.mem x = s.mem x) : Tree own' root m s' := by
  have hagree : ∀ x, InTree link s.mem root x → s'.mem x = s.mem x := by
    rintro x ⟨P, hP⟩
    exact hmem x P ((h.pages x P).2 hP)
  have hleaf : ∀ i j k, leaf link s'.mem root i j k = leaf link s.mem root i j k :=
    fun i j k => PageTree.leaf_of_agree hagree
  refine ⟨fun x P => ?_, fun x P i hx hP hv => ?_, fun i j k e he => ?_, fun v hv => ?_⟩
  · rw [hown, h.pages, PageTree.page_of_agree hagree]
  · rw [hown] at hx
    rw [hmem x P hx] at hv ⊢
    exact h.inner x P i hx hP hv
  · rw [hleaf] at he
    exact h.leaves i j k e he
  · rw [← h.map v hv]
    exact PageTables.lookup_congr fun i j k => by rw [hleaf]

/-- What `walk` changes: pages go from the free list to the table, and only their contents and those
of the table change. -/
structure Linked (own own' : Owners) (s s' : State) : Prop where
  owners : ∀ x, own' x = own x ∨ own x = .free ∧ ∃ P, own' x = .table P
  mem : ∀ x, own x ≠ .free → (∀ P, own x ≠ .table P) → s'.mem x = s.mem x

theorem Linked.refl : Linked own own s s := ⟨fun _ => .inl rfl, fun _ _ _ => rfl⟩

theorem Linked.eq_of_ne (h : Linked own own' s s') (hp : own p ≠ .free) : own' p = own p :=
  (h.owners p).resolve_right fun h => hp h.1

theorem Linked.trans {own'' : Owners} {s'' : State} (h₁ : Linked own own' s s')
    (h₂ : Linked own' own'' s' s'') : Linked own own'' s s'' := by
  refine ⟨fun x => ?_, fun x hfree htable => ?_⟩
  · rcases h₁.owners x with h | ⟨hfree, P, hP⟩
    · rw [← h]
      exact h₂.owners x
    · refine .inr ⟨hfree, P, ?_⟩
      rw [h₂.eq_of_ne (by rw [hP]; exact nofun), hP]
  · have hx := h₁.eq_of_ne hfree
    rw [h₂.mem x (by rwa [hx]) (by rwa [hx]), h₁.mem x hfree htable]

/-- `R`, `W` and `X` are among the flags. -/
theorem and_fourteen (e : Pte) : e &&& 14 = pteFlags e &&& 14 := by
  rw [pteFlags, Nat.and_assoc]
  rfl

theorem link_and_fourteen (q : ℕ) : (pa2pte q ||| 1) &&& 14 = 0 := by
  rw [and_fourteen, PageTables.pteFlags_entry (by decide)]
  rfl

/-- The table after page `q` was cleared and linked in at the place `N`. -/
theorem Tree.of_link (h : Tree own root m s) (hq : own q = .free) (hp : own p = .table M)
    (hnone : page link s.mem root N = none) (hmem : s'.mem = grow s.mem p i q 0 (pa2pte q ||| 1))
    (hpage : ∀ P, page link s'.mem root P = if P = N then some q else page link s.mem root P)
    (hleaf : ∀ i j k, leaf link s'.mem root i j k = leaf link s.mem root i j k ∨
      leaf link s'.mem root i j k = some 0 ∧ leaf link s.mem root i j k = none) :
    Tree (update own q (.table N)) root m s' := by
  have hpq : p ≠ q := by
    rintro rfl
    rw [hq] at hp
    cases hp
  refine ⟨fun x P => ?_, fun x P k hx hP hv => ?_, fun i' j k e he hv => ?_, fun v hv => ?_⟩
  · rw [hpage]
    rcases eq_or_ne x q with rfl | hx
    · rw [update_self]
      by_cases hPN : P = N
      · rw [if_pos hPN, hPN]
        exact ⟨fun _ => rfl, fun _ => rfl⟩
      · rw [if_neg hPN, ← h.pages, hq]
        exact ⟨fun h => absurd (Owner.table.inj h).symm hPN, nofun⟩
    · rw [update_of_ne hx, h.pages]
      by_cases hPN : P = N
      · rw [if_pos hPN, hPN, hnone]
        exact ⟨nofun, fun h => absurd (Option.some.inj h).symm hx⟩
      · rw [if_neg hPN]
  · rw [hmem] at hv ⊢
    rcases eq_or_ne x q with rfl | hxq
    · rw [PageTree.grow_new hpq] at hv
      exact absurd hv (show ¬ Pte.valid 0 = true by decide)
    rw [update_of_ne hxq] at hx
    rcases eq_or_ne x p with rfl | hxp
    · rw [PageTree.grow_self hpq, update_apply] at hv ⊢
      by_cases hk : k = i
      · rw [if_pos hk]
        exact link_and_fourteen q
      · rw [if_neg hk] at hv ⊢
        exact h.inner x P k hx hP hv
    · rw [PageTree.grow_of_ne hxp hxq] at hv ⊢
      exact h.inner x P k hx hP hv
  · rcases hleaf i' j k with hl | ⟨hl, -⟩
    · rw [hl] at he
      exact h.leaves i' j k e he hv
    · rw [hl] at he
      cases he
      cases hv
  · rw [← h.map v hv]
    refine PageTables.lookup_congr fun i' j k => ?_
    rcases hleaf i' j k with hl | ⟨hl, hl'⟩
    · rw [hl]
    · rw [hl, hl']
      rfl

/-- The place of the page that entry `i` of the page at a place of the upper levels leads to. -/
def below : TreePath (Fin 512) → Fin 512 → TreePath (Fin 512)
  | .root, i => .mid i
  | .mid i, j => .low i j
  | .low i j, _ => .low i j

/-- The page that an entry leads to is in the table. -/
theorem Tree.page_below (h : Tree own root m s) (hp : own p = .table M) (hM : ∀ j k, M ≠ .low j k) :
    page link s.mem root (below M i) = link (s.mem p i) := by
  rw [h.pages] at hp
  cases M with
  | root =>
    cases hp
    rfl
  | mid j =>
    rw [below, page]
    rw [page] at hp
    rw [hp, Option.bind_some]
  | low j k => exact absurd rfl (hM j k)

/-- The first free page is linked in. -/
theorem Tree.grown (hh : Heap kend own s) (h : Tree own root m s) (hp : own p = .table M)
    (hM : ∀ j k, M ≠ .low j k) (hnone : link (s.mem p i) = none) (hfree : s.freelist ≠ 0) :
    Tree (update own s.freelist (.table (below M i))) root m (s.grown p i) := by
  have hq := hh.first_free hfree
  have hfresh : ¬ InTree link s.mem root s.freelist := by
    refine h.not_inTree fun P hP => ?_
    rw [hq] at hP
    cases hP
  have hlink := PageTables.link_entry (hh.page s.freelist (by rw [hq]; exact nofun)).1
  have hbelow := (h.page_below hp hM).trans hnone
  have hplace := (h.pages p M).1 hp
  cases M with
  | root =>
    cases hplace
    refine h.of_link hq hp hbelow rfl (fun P => ?_) fun i' j k => .inl ?_
    · exact PageTree.page_link_mid h.separate PageTables.link_zero hlink hfresh hnone
    · exact PageTree.leaf_link_mid h.separate PageTables.link_zero hlink hfresh hnone i' j k
  | mid a =>
    refine h.of_link hq hp hbelow rfl (fun P => ?_) fun i' j k => ?_
    · exact PageTree.page_link_low h.separate hlink hfresh hplace
    · have hleaf : leaf link (s.grown p i).mem root i' j k =
          if i' = a ∧ j = i then some 0 else leaf link s.mem root i' j k :=
        PageTree.leaf_link_low h.separate hlink hfresh hplace i' j k
      by_cases hij : i' = a ∧ j = i
      · refine .inr ⟨by rw [hleaf, if_pos hij], ?_⟩
        rw [leaf, hij.1, hij.2]
        have hnew : page link s.mem root (.low a i) = none := hbelow
        rw [hnew]
        rfl
      · exact .inl (by rw [hleaf, if_neg hij])
  | low j k => exact absurd rfl (hM j k)

end Tree

/-! ### `kalloc`, `walk` and `mappages` -/

section Map

variable {kend root p : ℕ} {own : Owners} {m : Mapping} {s : State} {M : TreePath (Fin 512)}
  {i : Fin 512} {E : Fault → Prop} {F : PageTables.Fault → Prop}

/-- The state after `kalloc` took the first free page. -/
def taken (s : State) : State :=
  ⟨fill s.mem s.freelist 0x0505050505050505, s.mem s.freelist first⟩

theorem ends_kalloc {Q : ℕ → List Event → State → Prop} (hnone : s.freelist = 0 → Q 0 [.refused] s)
    (hsome : s.freelist ≠ 0 → Q s.freelist [] (taken s)) : Ends E kalloc s Q := by
  rw [kalloc, ends_refusing, PageTables.kalloc]
  simp only [ends_bind, ends_get, ends_emit]
  by_cases h : s.freelist = 0
  · rw [if_pos h, ends_pure, h]
    exact hnone h
  · rw [if_neg h, ends_bind, ends_modify, ends_pure, List.append_nil, List.nil_append,
      List.append_nil, refusals_page h]
    exact hsome h

/-- **`kalloc`** takes the first free page, or there is none. -/
theorem kalloc_owns (hh : Heap kend own s) : Ends E kalloc s fun p t s' =>
    (p = 0 ∧ t = [.refused] ∧ s' = s) ∨
      p ≠ 0 ∧ t = [] ∧ own p = .free ∧ Heap kend (update own p .held) s' ∧
        ∀ x ≠ p, s'.mem x = s.mem x := by
  refine ends_kalloc (fun _ => .inl ⟨rfl, rfl, rfl⟩) fun hfree => ?_
  have hmem : ∀ x ≠ s.freelist, (taken s).mem x = s.mem x := fun x hx => PageTree.fill_of_ne hx
  exact .inr ⟨hfree, rfl, hh.first_free hfree,
    hh.take hfree nofun rfl fun x _ hx => hmem x hx, hmem⟩

theorem kfree_owns (hkend : 0 < kend) (hh : Heap kend own s) (hp : own p ≠ .other)
    (hfree : own p ≠ .free) :
    Ends E (kfree kend p) s fun _ t s' => t = [] ∧ Heap kend (update own p .free) s' ∧
      ∀ x ≠ p, s'.mem x = s.mem x := by
  obtain ⟨haligned, hlow, hhigh⟩ := hh.page p hp
  have hram : ¬ (p % pgsize ≠ 0 ∨ p < kend ∨ phystop ≤ p) := by
    have hmod := Nat.mod_eq_zero_of_dvd haligned
    omega
  rw [kfree, ends_lift, PageTables.kfree, if_neg hram, ends_modify]
  exact ⟨rfl, hh.give hkend hp hfree, fun x hx => PageTables.freed_of_ne hx⟩

/-- **One round of `walk`** keeps the table. -/
theorem walkStep_owns (hh : Heap kend own s) (ht : Tree own root m s) (hp : own p = .table M)
    (hM : ∀ j k, M ≠ .low j k) : Ends F (PageTables.walkStep true p i) s fun r t s' => ∃ own',
      Heap kend own' s' ∧ Tree own' root m s' ∧ Linked own own' s s' ∧
        (r = none ∧ refusals t = [.refused] ∨
          ∃ q, r = some q ∧ refusals t = [] ∧ own' q = .table (below M i)) := by
  rcases PageTables.walkStep_runs true p i s with ⟨q, hq, hrun⟩ | ⟨-, -, hrun⟩ |
    ⟨hnone, -, hfree, hrun⟩
  · refine hrun.ends_iff.2 ⟨own, hh, ht, .refl, .inr ⟨q, rfl, rfl, ?_⟩⟩
    rw [ht.pages, ht.page_below hp hM, hq]
  · exact hrun.ends_iff.2 ⟨own, hh, ht, .refl, .inl ⟨rfl, rfl⟩⟩
  · have hq := hh.first_free hfree
    have hpq : p ≠ s.freelist := by
      intro heq
      rw [heq, hq] at hp
      cases hp
    refine hrun.ends_iff.2 ⟨update own s.freelist (.table (below M i)), ?_,
      ht.grown hh hp hM hnone hfree, ?_,
      .inr ⟨s.freelist, rfl, refusals_page hfree, update_self _ _ _⟩⟩
    · refine hh.take hfree nofun rfl fun x hx hne => PageTree.grow_of_ne ?_ hne
      rintro rfl
      rw [hx] at hp
      cases hp
    · refine ⟨fun x => ?_, fun x hfree' htable => PageTree.grow_of_ne ?_ ?_⟩
      · rcases eq_or_ne x s.freelist with rfl | hx
        · exact .inr ⟨hq, below M i, update_self _ _ _⟩
        · exact .inl (update_of_ne hx _ _)
      · rintro rfl
        exact htable M hp
      · rintro rfl
        exact hfree' hq

/-- **`walk`** finds the entry of an address, or is refused a page. -/
theorem walk_owns {va : ℕ} (hva : va < maxva) (hh : Heap kend own s) (ht : Tree own root m s) :
    Ends F (PageTables.walk root va true) s fun r t s' => ∃ own',
      Heap kend own' s' ∧ Tree own' root m s' ∧ Linked own own' s s' ∧
        (r = none ∧ refusals t = [.refused] ∨ ∃ p, r = some (p, px 0 va) ∧ refusals t = [] ∧
          own' p = .table (.low (px 2 va) (px 1 va))) := by
  have hroot : own root = .table .root := (ht.pages root .root).2 rfl
  rw [PageTables.walk, if_neg (by omega), ends_bind]
  refine (walkStep_owns hh ht hroot (by simp)).post fun r₁ t₁ s₁ h₁ => ?_
  obtain ⟨own₁, hh₁, ht₁, hl₁, ⟨rfl, hrec₁⟩ | ⟨q₁, rfl, hrec₁, hq₁⟩⟩ := h₁
  · refine ends_pure.2 ⟨own₁, hh₁, ht₁, hl₁, .inl ⟨rfl, ?_⟩⟩
    rwa [List.append_nil]
  · dsimp only
    rw [ends_bind]
    refine (walkStep_owns hh₁ ht₁ hq₁ (by simp [below])).post ?_
    rintro r₂ t₂ s₂ (⟨own₂, hh₂, ht₂, hl₂, ⟨rfl, hrec₂⟩ | ⟨q₂, rfl, hrec₂, hq₂⟩⟩)
    · refine ends_pure.2 ⟨own₂, hh₂, ht₂, hl₁.trans hl₂, .inl ⟨rfl, ?_⟩⟩
      simp [hrec₁, hrec₂]
    · refine ends_pure.2 ⟨own₂, hh₂, ht₂, hl₁.trans hl₂, .inr ⟨q₂, rfl, ?_, hq₂⟩⟩
      simp [hrec₁, hrec₂]

/-- The table after an entry of its lowest level was stored. -/
theorem Tree.store {v : ℕ} {e : Pte} (h : Tree own root m s) (hv : v < 2 ^ 27)
    (hp : own p = .table (.low (px 2 (v * pgsize)) (px 1 (v * pgsize))))
    (he : e.valid = true → isLeaf e = true) :
    Tree own root (update m v (if isLeaf e then some (decode e) else none))
      { s with mem := set s.mem p (px 0 (v * pgsize)) e } := by
  have hplace := (h.pages p _).1 hp
  refine ⟨fun x P => ?_, fun x P k hx hP hvalid => ?_, fun i' j k e' he' hvalid => ?_,
    fun w hw => ?_⟩
  · rw [PageTree.page_set_leaf h.separate hplace, h.pages]
  · have hxp : x ≠ p := by
      rintro rfl
      exact hP _ _ (Owner.table.inj (hx.symm.trans hp))
    dsimp only at hvalid ⊢
    rw [PageTree.set_of_ne hxp] at hvalid ⊢
    exact h.inner x P k hx hP hvalid
  · rw [PageTree.leaf_set_leaf h.separate hplace] at he'
    split_ifs at he'
    · cases he'
      exact he hvalid
    · exact h.leaves i' j k e' he' hvalid
  · rw [PageTables.lookup_set h.separate hplace hv hw, update_apply, h.map w hw]

/-- The entry of a page that is not mapped is not valid. -/
theorem Tree.invalid {v : ℕ} (h : Tree own root m s) (hv : v < 2 ^ 27) (hm : m v = none)
    (hp : own p = .table (.low (px 2 (v * pgsize)) (px 1 (v * pgsize)))) :
    ¬ (s.mem p (px 0 (v * pgsize))).valid = true := by
  intro hvalid
  have hplace := (h.pages p _).1 hp
  have hleaf := h.leaves _ _ (px 0 (v * pgsize)) _ (by rw [leaf, hplace, Option.map_some]) hvalid
  have hmap := h.map v hv
  rw [PageTables.lookup_of_page hplace, if_pos hleaf, hm] at hmap
  cases hmap

/-- **`mappages` of one page** enters it, or is refused a page of the table. -/
theorem mappages_owns {v pa perm : ℕ} (hh : Heap kend own s) (ht : Tree own root m s)
    (hv : v < 2 ^ 26)
    (hm : m v = none) (hpa : pgsize ∣ pa) (hperm : perm < 2 ^ 10) (hleaf : perm &&& 14 ≠ 0) :
    Ends E (mappages root (v * pgsize) pgsize pa perm) s fun r t s' => ∃ own',
      Heap kend own' s' ∧ Linked own own' s s' ∧
        (r = -1 ∧ t = [.refused] ∧ Tree own' root m s' ∨
          r = 0 ∧ t = [] ∧ Tree own' root (update m v (some (pa, perm ||| 1))) s') := by
  have hva : v * pgsize < maxva := by
    simp only [maxva, pgsize]
    omega
  have hdown : pgrounddown (v * pgsize) = v * pgsize := by
    simp only [pgrounddown, pgsize]
    omega
  have hlast : pgrounddown (v * pgsize + pgsize - 1) = v * pgsize := by
    simp only [pgrounddown, pgsize]
    omega
  have hrounds : pgsize = 4095 + 1 := rfl
  rw [mappages, ends_refusing, PageTables.mappages, if_neg (by decide), hdown, hlast]
  nth_rewrite 2 [hrounds]
  rw [PageTables.mapLoop, ends_bind]
  refine (walk_owns hva hh ht).post ?_
  rintro r t s₁ (⟨own₁, hh₁, ht₁, hl₁, ⟨rfl, hrec⟩ | ⟨p, rfl, hrec, hp⟩⟩)
  · refine ends_pure.2 ⟨own₁, hh₁, hl₁, .inl ⟨rfl, ?_, ht₁⟩⟩
    rwa [List.append_nil]
  · dsimp only
    rw [ends_bind, ends_get, if_neg (ht₁.invalid (by omega) hm hp), ends_bind, PageTables.store,
      ends_modify, if_pos rfl, ends_pure, List.append_nil, List.append_nil, List.append_nil, hrec]
    have ht₂ := ht₁.store (e := pa2pte pa ||| perm ||| 1) (by omega) hp
      fun _ => PageTables.isLeaf_entry hleaf
    rw [if_pos (PageTables.isLeaf_entry hleaf), PageTables.decode_entry hpa hperm] at ht₂
    refine ⟨own₁, ?_, ?_, .inr ⟨rfl, rfl, ht₂⟩⟩
    · refine hh₁.congr (fun _ => Iff.rfl) (fun _ h => h) rfl fun x hx => PageTree.set_of_ne ?_
      rintro rfl
      rw [hx] at hp
      cases hp
    · refine ⟨hl₁.owners, fun x hfree htable => ?_⟩
      rw [← hl₁.mem x hfree htable]
      refine PageTree.set_of_ne ?_
      rintro rfl
      rw [hl₁.eq_of_ne hfree] at hp
      exact htable _ hp

end Map

/-! ### `uvmunmap` -/

section Unmap

variable {kend root v f g n : ℕ} {own : Owners} {m : Mapping} {s : State}
  {E : PageTables.Fault → Prop}

/-- The page of the table with the entry of a page that is mapped. -/
theorem Tree.entry (h : Tree own root m s) (hv : v < 2 ^ 27) (hm : m v = some (f, g)) : ∃ p,
    own p = .table (.low (px 2 (v * pgsize)) (px 1 (v * pgsize))) ∧
      isLeaf (s.mem p (px 0 (v * pgsize))) = true ∧ pte2pa (s.mem p (px 0 (v * pgsize))) = f := by
  obtain ⟨p, hp, hleaf, hf⟩ := PageTables.entry_of_lookup ((h.map v hv).trans hm)
  exact ⟨p, (h.pages p _).2 hp, hleaf, hf⟩

/-- One round of `uvmunmap` that keeps the frame. -/
theorem unmapPage_keeps (hh : Heap kend own s) (ht : Tree own root m s) (hv : v < 2 ^ 26)
    (hm : m v = some (f, g)) :
    Ends E (PageTables.unmapPage kend root false (v * pgsize)) s fun _ _ s' =>
      Heap kend own s' ∧ Tree own root (update m v none) s' ∧
        ∀ x, (∀ P, own x ≠ .table P) → s'.mem x = s.mem x := by
  obtain ⟨p, hp, hleaf, hf⟩ := ht.entry (by omega) hm
  have hrun : Runs (PageTables.unmapPage kend root false (v * pgsize)) s () []
      { s with mem := set s.mem p (px 0 (v * pgsize)) 0 } :=
    (PageTables.unmapPage_runs_iff hv ((ht.pages p _).1 hp) hleaf hf).2 ⟨rfl, .inl ⟨rfl, rfl⟩⟩
  refine hrun.ends_iff.2 ⟨?_, ht.store (e := 0) (by omega) hp nofun, fun x hx => ?_⟩
  · refine hh.congr (fun _ => Iff.rfl) (fun _ h => h) rfl fun x hx => PageTree.set_of_ne ?_
    rintro rfl
    rw [hx] at hp
    cases hp
  · refine PageTree.set_of_ne ?_
    rintro rfl
    exact hx _ hp

/-- One round of `uvmunmap` that frees the frame. -/
theorem unmapPage_frees (hkend : 0 < kend) (hh : Heap kend own s) (ht : Tree own root m s)
    (hv : v < 2 ^ 26) (hm : m v = some (f, g)) (hown : own f = .frame v) :
    Ends E (PageTables.unmapPage kend root true (v * pgsize)) s fun _ _ s' =>
      Heap kend (update own f .free) s' ∧
        Tree (update own f .free) root (update m v none) s' ∧
        ∀ x ≠ f, (∀ P, own x ≠ .table P) → s'.mem x = s.mem x := by
  obtain ⟨p, hp, hleaf, hf⟩ := ht.entry (by omega) hm
  have hother : own f ≠ .other := by
    rw [hown]
    exact nofun
  have hfree : own f ≠ .free := by
    rw [hown]
    exact nofun
  have hpf : ∀ x P, own x = .table P → x ≠ f := by
    rintro x P hx rfl
    rw [hown] at hx
    cases hx
  obtain ⟨-, hlow, hhigh⟩ := hh.page f hother
  have hrun : Runs (PageTables.unmapPage kend root true (v * pgsize)) s () []
      { s.freed f with mem := set (s.freed f).mem p (px 0 (v * pgsize)) 0 } :=
    (PageTables.unmapPage_runs_iff hv ((ht.pages p _).1 hp) hleaf hf).2
      ⟨rfl, .inr ⟨rfl, hlow, hhigh, rfl⟩⟩
  have htable : ∀ x P, update own f .free x = .table P ↔ own x = .table P := by
    intro x P
    rcases eq_or_ne x f with rfl | hx
    · rw [update_self, hown]
      exact ⟨nofun, nofun⟩
    · rw [update_of_ne hx]
  have ht₁ : Tree (update own f .free) root m (s.freed f) :=
    ht.congr htable fun x P hx => PageTables.freed_of_ne (hpf x P hx)
  refine hrun.ends_iff.2 ⟨?_, ht₁.store (e := 0) (by omega) ((htable p _).2 hp) nofun,
    fun x hxf hx => ?_⟩
  · refine (hh.give hkend hother hfree).congr (fun _ => Iff.rfl) (fun _ h => h) rfl
      fun x hx => PageTree.set_of_ne ?_
    rintro rfl
    rw [(htable x _).2 hp] at hx
    cases hx
  · dsimp only
    rw [PageTree.set_of_ne, PageTables.freed_of_ne hxf]
    rintro rfl
    exact hx _ hp

/-- `TRAPFRAME / PGSIZE`: the pages of user memory are below. -/
def userPages : ℕ := 2 ^ 26 - 2

/-- The frames of the user pages are owned by them, and by nothing else. -/
def Frames (own : Owners) (m : Mapping) : Prop :=
  ∀ x v, own x = .frame v ↔ v < userPages ∧ ∃ g, m v = some (x, g)

/-- The owners after the frames of `n` pages from page `v` on were freed. -/
def freeFrames (own : Owners) (v n : ℕ) : Owners := fun x =>
  match own x with
  | .frame w => if v ≤ w ∧ w < v + n then .free else .frame w
  | o => o

theorem freeFrames_zero : freeFrames own v 0 = own := by
  funext x
  unfold freeFrames
  cases own x with
  | frame w => exact if_neg (by omega)
  | _ => rfl

theorem freeFrames_of_ne {x : ℕ} (h : ∀ w, own x ≠ .frame w) : freeFrames own v n x = own x := by
  unfold freeFrames
  cases hx : own x with
  | frame w => exact absurd hx (h w)
  | _ => rfl

/-- One more frame was freed. -/
theorem freeFrames_succ (hF : Frames own m) (hv : v + n < userPages)
    (hm : m (v + n) = some (f, g)) :
    update (freeFrames own v n) f .free = freeFrames own v (n + 1) := by
  have hown : own f = .frame (v + n) := (hF f (v + n)).2 ⟨hv, g, hm⟩
  funext x
  rcases eq_or_ne x f with rfl | hx
  · rw [update_self, freeFrames, hown]
    exact (if_pos (by omega)).symm
  rw [update_of_ne hx]
  unfold freeFrames
  cases hw : own x with
  | frame w =>
    have hne : w ≠ v + n := by
      rintro rfl
      obtain ⟨-, g', hg'⟩ := (hF x _).1 hw
      rw [hm] at hg'
      cases hg'
      exact hx rfl
    by_cases hin : v ≤ w ∧ w < v + n
    · exact (if_pos hin).trans (if_pos (by omega)).symm
    · exact (if_neg hin).trans (if_neg (by omega)).symm
  | _ => rfl

theorem Frames.remove (hF : Frames own m) : Frames (freeFrames own v n) (m.remove v n) := by
  intro x w
  unfold freeFrames Mapping.remove
  by_cases hw : v ≤ w ∧ w < v + n
  · rw [if_pos hw]
    cases hx : own x with
    | frame w' =>
      dsimp only
      split_ifs with hin
      · exact ⟨nofun, fun h => by obtain ⟨-, g', hg'⟩ := h; cases hg'⟩
      · refine ⟨fun h => ?_, fun h => by obtain ⟨-, g', hg'⟩ := h; cases hg'⟩
        cases h
        exact absurd hw hin
    | _ => exact ⟨nofun, fun h => by obtain ⟨-, g', hg'⟩ := h; cases hg'⟩
  · rw [if_neg hw, ← hF]
    cases hx : own x with
    | frame w' =>
      dsimp only
      split_ifs with hin
      · refine ⟨nofun, fun h => ?_⟩
        cases h
        exact absurd hin hw
      · exact Iff.rfl
    | _ => exact Iff.rfl

theorem remove_succ : update (m.remove v n) (v + n) none = m.remove v (n + 1) := by
  funext w
  rw [update_apply]
  unfold Mapping.remove
  by_cases hw : w = v + n
  · rw [if_pos hw, if_pos (by omega)]
  · rw [if_neg hw]
    by_cases hin : v ≤ w ∧ w < v + n
    · rw [if_pos hin, if_pos (by omega)]
    · rw [if_neg hin, if_neg (by omega)]

/-- **`uvmunmap` of user pages** gives their frames back. -/
theorem uvmunmap_frees {E : Fault → Prop} (hkend : 0 < kend) (hh : Heap kend own s)
    (ht : Tree own root m s) (hF : Frames own m) (hv : v + n ≤ userPages)
    (hm : ∀ w, v ≤ w → w < v + n → m w ≠ none) :
    Ends E (uvmunmap kend root (v * pgsize) n true) s fun _ t s' =>
      t = [] ∧ Heap kend (freeFrames own v n) s' ∧
        Tree (freeFrames own v n) root (m.remove v n) s' ∧
        ∀ x, (∀ P, own x ≠ .table P) → (∀ w, own x ≠ .frame w) → s'.mem x = s.mem x := by
  have hlimit : userPages < 2 ^ 26 := by decide
  rw [uvmunmap, ends_lift, PageTables.uvmunmap, if_neg (by simp)]
  refine Ends.post (Ends.forRange (t := []) (fun j _ s₁ => Heap kend (freeFrames own v j) s₁ ∧
    Tree (freeFrames own v j) root (m.remove v j) s₁ ∧
    ∀ x, (∀ P, own x ≠ .table P) → (∀ w, own x ≠ .frame w) → s₁.mem x = s.mem x) ?_ ?_)
    fun _ _ s₁ h₁ => ?_
  · rintro j t s₁ - hj ⟨hh₁, ht₁, hmem₁⟩
    rw [Nat.zero_add] at hj
    obtain ⟨⟨f, g⟩, hfg⟩ := Option.ne_none_iff_exists'.1 (hm (v + j) (by omega) (by omega))
    have hcur : m.remove v j (v + j) = some (f, g) := by
      unfold Mapping.remove
      rw [if_neg (by omega), hfg]
    have hown : freeFrames own v j f = .frame (v + j) := by
      rw [freeFrames, (hF f (v + j)).2 ⟨by omega, g, hfg⟩]
      exact if_neg (by omega)
    rw [← Nat.add_mul]
    refine (unmapPage_frees hkend hh₁ ht₁ (by omega) hcur hown).post fun _ t' s₂ h₂ => ?_
    rw [freeFrames_succ hF (by omega) hfg, remove_succ] at h₂
    refine ⟨h₂.1, h₂.2.1, fun x hx hx' => ?_⟩
    rw [h₂.2.2 x ?_ ?_, hmem₁ x hx hx']
    · rintro rfl
      exact hx' _ ((hF x (v + j)).2 ⟨by omega, g, hfg⟩)
    · rwa [freeFrames_of_ne hx']
  · refine ⟨?_, ?_, fun _ _ _ => rfl⟩
    · rwa [freeFrames_zero]
    · have hzero : m.remove v 0 = m := funext fun w => if_neg (by omega)
      rwa [freeFrames_zero, hzero]
  · rw [Nat.zero_add] at h₁
    exact ⟨rfl, h₁⟩

/-- `uvmunmap` of one page, whose frame is kept. -/
theorem uvmunmap_keeps {E : Fault → Prop} (hh : Heap kend own s) (ht : Tree own root m s)
    (hv : v < 2 ^ 26) (hm : m v = some (f, g)) :
    Ends E (uvmunmap kend root (v * pgsize) 1 false) s fun _ t s' =>
      t = [] ∧ Heap kend own s' ∧ Tree own root (update m v none) s' ∧
        ∀ x, (∀ P, own x ≠ .table P) → s'.mem x = s.mem x := by
  rw [uvmunmap, ends_lift, PageTables.uvmunmap, if_neg (by simp), forRange_succ, ends_bind,
    Nat.zero_mul, Nat.add_zero]
  refine (unmapPage_keeps hh ht hv hm).post fun _ _ s₁ h₁ => ?_
  rw [forRange_zero, ends_pure]
  exact ⟨rfl, h₁⟩

end Unmap

/-! ### `freewalk` -/

section Freewalk

/-- The entry of the page at `M` through which the page at a place further down is reached. -/
def branch : TreePath (Fin 512) → TreePath (Fin 512) → Option (Fin 512)
  | .root, .mid i => some i
  | .root, .low i _ => some i
  | .mid i, .low i' j => if i' = i then some j else none
  | _, _ => none

/-- The place `P` is `M` or further down. -/
def under (M P : TreePath (Fin 512)) : Bool := P = M || (branch M P).isSome

/-- The owners after the pages of the table at some places were freed. -/
def freeTable (own : Owners) (S : TreePath (Fin 512) → Bool) : Owners := fun x =>
  match own x with
  | .table P => if S P then .free else .table P
  | o => o

variable {kend root p x k : ℕ} {own own' : Owners} {m : Mapping} {s s' : State}
  {M P : TreePath (Fin 512)} {i : Fin 512} {S : TreePath (Fin 512) → Bool}

theorem freeTable_of_ne (h : ∀ P, own x ≠ .table P) : freeTable own S x = own x := by
  unfold freeTable
  cases hx : own x with
  | table P => exact absurd hx (h P)
  | _ => rfl

theorem freeTable_of_table (h : own x = .table P) :
    freeTable own S x = if S P then .free else .table P := by
  rw [freeTable, h]

theorem freeTable_eq_table : freeTable own S x = .table P ↔ own x = .table P ∧ S P = false := by
  unfold freeTable
  cases hx : own x with
  | table Q =>
    dsimp only
    by_cases hS : S Q = true
    · rw [if_pos hS]
      refine ⟨nofun, fun h => ?_⟩
      obtain ⟨h, hP⟩ := h
      cases h
      rw [hS] at hP
      cases hP
    · rw [if_neg hS]
      refine ⟨fun h => ?_, fun h => h.1⟩
      cases h
      exact ⟨rfl, by simpa using hS⟩
  | _ => exact ⟨nofun, fun h => by cases h.1⟩

/-- The places under the page that entry `i` leads to are those that are reached through it. -/
theorem under_below (hM : ∀ j k, M ≠ .low j k) :
    under (below M i) P = true ↔ branch M P = some i := by
  cases M with
  | root => cases P <;> simp [under, below, branch]
  | mid a => cases P <;> simp [under, below, branch]
  | low j k => exact absurd rfl (hM j k)

/-- Below a page, the table consists of pages that are linked from above, has no valid entries in
its lowest level, and no two pages are at the same place. -/
structure Subtree (own : Owners) (s : State) (M : TreePath (Fin 512)) : Prop where
  unique : ∀ x y P, under M P = true → own x = .table P → own y = .table P → x = y
  down : ∀ x P i, under M P = true → own x = .table P → (s.mem x i).valid = true →
    (∀ j k, P ≠ .low j k) ∧ s.mem x i &&& 14 = 0 ∧ own (pte2pa (s.mem x i)) = .table (below P i)
  up : ∀ x P i, under M P = true → (∀ j k, P ≠ .low j k) → own x = .table (below P i) →
    ∃ y, own y = .table P ∧ (s.mem y i).valid = true

theorem under_of_branch (h : branch M P = some i) : under M P = true := by
  rw [under, h, Option.isSome_some, Bool.or_true]

theorem under_self : under M M = true := by simp [under]

theorem branch_self : branch M M = none := by
  cases M with
  | root => rfl
  | mid a => rfl
  | low a b => rfl

/-- What is further down is reached through the same entry. -/
theorem branch_below {j : Fin 512} (h : branch M P = some i) (hP : ∀ j k, P ≠ .low j k) :
    branch M (below P j) = some i := by
  cases P with
  | root => cases M <;> cases h
  | mid a =>
    cases M with
    | root => exact h
    | mid b => cases h
    | low b c => cases h
  | low a b => exact absurd rfl (hP a b)

/-- The part of the table that is reached through one entry. -/
theorem Subtree.child (h : Subtree own s M) (hM : ∀ j k, M ≠ .low j k)
    (hown : ∀ x P, branch M P = some i → (own' x = .table P ↔ own x = .table P))
    (hmem : ∀ x P, branch M P = some i → own x = .table P → s'.mem x = s.mem x) :
    Subtree own' s' (below M i) := by
  refine ⟨fun x y P hP hx hy => ?_, fun x P j hP hx hv => ?_, fun x P j hP hupper hx => ?_⟩
  · rw [under_below hM] at hP
    rw [hown _ _ hP] at hx hy
    exact h.unique x y P (under_of_branch hP) hx hy
  · rw [under_below hM] at hP
    rw [hown _ _ hP] at hx
    rw [hmem x P hP hx] at hv ⊢
    obtain ⟨hupper, hlink, hchild⟩ := h.down x P j (under_of_branch hP) hx hv
    exact ⟨hupper, hlink, (hown _ _ (branch_below hP hupper)).2 hchild⟩
  · rw [under_below hM] at hP
    rw [hown _ _ (branch_below hP hupper)] at hx
    obtain ⟨y, hy, hv⟩ := h.up x P j (under_of_branch hP) hupper hx
    refine ⟨y, (hown _ _ hP).2 hy, ?_⟩
    rwa [hmem y P hP hy]

/-- Pages further down are reached through valid entries. -/
theorem Subtree.valid (h : Subtree own s M) (hp : own p = .table M) (hx : own x = .table P)
    (hP : branch M P = some i) : (s.mem p i).valid = true := by
  have hlast : ∀ {y : ℕ}, (∀ j k, M ≠ .low j k) → own y = .table (below M i) →
      (s.mem p i).valid = true := by
    intro y hM hy
    obtain ⟨q, hq, hv⟩ := h.up y M i under_self hM hy
    rwa [h.unique p q M under_self hp hq]
  cases M with
  | root =>
    have hM : ∀ j k, (TreePath.root : TreePath (Fin 512)) ≠ .low j k := fun j k h => by cases h
    cases P with
    | root => cases hP
    | mid a =>
      cases hP
      exact hlast hM hx
    | low a b =>
      cases hP
      obtain ⟨y, hy, -⟩ := h.up x (.mid i) b rfl (fun j k h => by cases h) hx
      exact hlast hM hy
  | mid a =>
    cases P with
    | root => cases hP
    | mid b => cases hP
    | low b c =>
      rw [branch] at hP
      split_ifs at hP with hab
      cases hP
      rw [hab] at hx
      exact hlast (fun j k h => by cases h) hx
  | low a b => cases hP

/-- The places that are reached through the first `n` entries. -/
def passed (M : TreePath (Fin 512)) (n : ℕ) (P : TreePath (Fin 512)) : Bool :=
  (branch M P).any fun i => i.val < n

theorem passed_iff {n : ℕ} : passed M n P = true ↔ ∃ i, branch M P = some i ∧ i.val < n := by
  rw [passed, Option.any_eq_true]
  simp

/-- In the loop of `freewalk`, when `n` entries of page `p` were looked at. -/
structure Walked (kend : ℕ) (own : Owners) (s : State) (p : ℕ) (M : TreePath (Fin 512)) (n : ℕ)
    (s' : State) : Prop where
  heap : Heap kend (freeTable own (passed M n)) s'
  entries : ∀ i : Fin 512, n ≤ i.val → s'.mem p i = s.mem p i
  mem : ∀ x ≠ p, (∀ P i, own x = .table P → branch M P = some i → n ≤ i.val) → s'.mem x = s.mem x

theorem Walked.start (h : Heap kend own s) : Walked kend own s p M 0 s := by
  have hnone : freeTable own (passed M 0) = own := by
    funext x
    unfold freeTable
    cases own x with
    | table P =>
      refine if_neg ?_
      rw [passed_iff]
      rintro ⟨i, -, hi⟩
      exact absurd hi (Nat.not_lt_zero _)
    | _ => rfl
  exact ⟨by rwa [hnone], fun _ _ => rfl, fun _ _ _ => rfl⟩

/-- The pages behind the next entry are freed as well. -/
theorem freeTable_child (hM : ∀ j k, M ≠ .low j k) :
    freeTable (freeTable own (passed M i.val)) (under (below M i)) =
      freeTable own (passed M (i.val + 1)) := by
  funext x
  cases hx : own x with
  | table P =>
    rw [freeTable_of_table hx]
    by_cases hpass : passed M i.val P = true
    · have hfree : freeTable own (passed M i.val) x = .free := by
        rw [freeTable_of_table hx, if_pos hpass]
      rw [freeTable_of_ne (by rw [hfree]; exact fun _ => nofun), hfree, if_pos]
      obtain ⟨j, hj, hlt⟩ := passed_iff.1 hpass
      exact passed_iff.2 ⟨j, hj, by omega⟩
    · have hkept : freeTable own (passed M i.val) x = .table P := by
        rw [freeTable_of_table hx, if_neg hpass]
      rw [freeTable_of_table hkept]
      by_cases hb : branch M P = some i
      · rw [if_pos ((under_below hM).2 hb), if_pos (passed_iff.2 ⟨i, hb, by omega⟩)]
      · rw [if_neg (fun h => hb ((under_below hM).1 h)), if_neg]
        rw [passed_iff]
        rintro ⟨j, hj, hlt⟩
        have hji : j.val ≠ i.val := fun h => hb (by rw [hj, Fin.ext h])
        exact hpass (passed_iff.2 ⟨j, hj, by omega⟩)
  | _ => simp [freeTable, hx]

/-- The pages behind the next entry were freed, and the entry is cleared. -/
theorem Walked.child {s₁ s₂ : State} (h : Walked kend own s p M i.val s₁) (hp : own p = .table M)
    (hM : ∀ j k, M ≠ .low j k)
    (hheap : Heap kend (freeTable (freeTable own (passed M i.val)) (under (below M i))) s₂)
    (hmem : ∀ x, (∀ P, freeTable own (passed M i.val) x = .table P → under (below M i) P = false) →
      s₂.mem x = s₁.mem x) :
    Walked kend own s p M (i.val + 1) { s₂ with mem := set s₂.mem p i 0 } := by
  have hpage : s₂.mem p = s₁.mem p := by
    refine hmem p fun P hP => ?_
    obtain ⟨hP', -⟩ := freeTable_eq_table.1 hP
    cases hp.symm.trans hP'
    rw [Bool.eq_false_iff, Ne, under_below hM, branch_self]
    exact nofun
  rw [freeTable_child hM] at hheap
  refine ⟨hheap.congr (fun _ => Iff.rfl) (fun _ h => h) rfl fun x hx => PageTree.set_of_ne ?_,
    fun j hj => ?_, fun x hxp hx => ?_⟩
  · rintro rfl
    rw [freeTable_of_table hp, if_neg] at hx
    · cases hx
    · rw [passed_iff, branch_self]
      rintro ⟨_, h, -⟩
      cases h
  · have hne : j ≠ i := by
      rintro rfl
      omega
    dsimp only
    rw [PageTree.set_self, update_of_ne hne, hpage]
    exact h.entries j (by omega)
  · dsimp only
    rw [PageTree.set_of_ne hxp, hmem x fun P hP => ?_]
    · exact h.mem x hxp fun P j hP hj => Nat.le_of_succ_le (hx P j hP hj)
    · obtain ⟨hP', -⟩ := freeTable_eq_table.1 hP
      rw [Bool.eq_false_iff, Ne, under_below hM]
      intro hb
      have hlt := hx P i hP' hb
      omega

/-- The next entry is not valid. -/
theorem Walked.skip {s₁ : State} (h : Walked kend own s p M i.val s₁)
    (hnone : ∀ x P, own x = .table P → branch M P ≠ some i) :
    Walked kend own s p M (i.val + 1) s₁ := by
  have hlt : ∀ x P j, own x = .table P → branch M P = some j →
      (j.val < i.val + 1 ↔ j.val < i.val) := by
    intro x P j hx hj
    have hne : j.val ≠ i.val := fun heq => hnone x P hx (by rw [hj, Fin.ext heq])
    omega
  have hsame : freeTable own (passed M (i.val + 1)) = freeTable own (passed M i.val) := by
    funext x
    cases hx : own x with
    | table P =>
      have hpass : passed M (i.val + 1) P = passed M i.val P := by
        rw [Bool.eq_iff_iff, passed_iff, passed_iff]
        exact exists_congr fun j => and_congr_right fun hj => hlt x P j hx hj
      rw [freeTable_of_table hx, freeTable_of_table hx, hpass]
    | _ => simp [freeTable, hx]
  refine ⟨by rw [hsame]; exact h.heap, fun j hj => h.entries j (by omega), fun x hxp hx => ?_⟩
  exact h.mem x hxp fun P j hP hj => Nat.le_of_succ_le (hx P j hP hj)

/-- All entries were looked at, and the page itself is freed. -/
theorem Subtree.freeTable_all (h : Subtree own s M) (hp : own p = .table M) :
    update (freeTable own (passed M (0 + 512))) p .free = freeTable own (under M) := by
  funext x
  rcases eq_or_ne x p with rfl | hxp
  · rw [update_self, freeTable_of_table hp, if_pos under_self]
  rw [update_of_ne hxp]
  cases hx : own x with
  | table P =>
    have hpass : passed M (0 + 512) P = under M P := by
      have hne : P ≠ M := by
        rintro rfl
        exact hxp (h.unique x p P under_self hx hp)
      rw [Bool.eq_iff_iff, passed_iff, under, Bool.or_eq_true, Option.isSome_iff_exists]
      constructor
      · rintro ⟨i, hi, -⟩
        exact .inr ⟨i, hi⟩
      · rintro (heq | ⟨i, hi⟩)
        · exact absurd (of_decide_eq_true heq) hne
        · exact ⟨i, hi, by omega⟩
    rw [freeTable_of_table hx, freeTable_of_table hx, hpass]
  | _ => simp [freeTable, hx]

/-- The number of levels from a place down. -/
def height : TreePath (Fin 512) → ℕ
  | .root => 3
  | .mid _ => 2
  | .low _ _ => 1

theorem height_below (hM : ∀ j k, M ≠ .low j k) : height (below M i) + 1 = height M := by
  cases M with
  | root => rfl
  | mid a => rfl
  | low j k => exact absurd rfl (hM j k)

/-- **`freewalk`** gives back a page of the table and everything below it. -/
theorem freewalk_subtree {E : Fault → Prop} (hkend : 0 < kend) (hk : height M ≤ k)
    (hh : Heap kend own s) (hsub : Subtree own s M) (hp : own p = .table M) :
    Ends E (freewalk kend k p) s fun _ t s' => t = [] ∧ Heap kend (freeTable own (under M)) s' ∧
      ∀ x, (∀ P, own x = .table P → under M P = false) → s'.mem x = s.mem x := by
  induction k generalizing M p own s with
  | zero =>
    cases M with
    | root => exact absurd hk (by decide)
    | mid a => exact absurd hk (Nat.not_succ_le_zero 1)
    | low a b => exact absurd hk (Nat.not_succ_le_zero 0)
  | succ k ih =>
    rw [freewalk, ends_bind]
    refine Ends.post (Ends.forRange (t := []) (fun n t s₁ => t = [] ∧ Walked kend own s p M n s₁) ?_
      ⟨rfl, .start hh⟩) fun _ t s₁ h₁ => ?_
    · rintro n t s₁ - hn ⟨rfl, hw⟩
      have hi : (index n).val = n := Nat.mod_eq_of_lt (by omega)
      rw [← hi] at hw
      have hentry := hw.entries (index n) le_rfl
      rw [ends_bind, ends_get]
      dsimp only
      rw [hentry]
      by_cases hv : (s.mem p (index n)).valid = true
      · obtain ⟨hM, hlink, hchild⟩ := hsub.down p M (index n) under_self hp hv
        rw [if_pos ⟨hv, hlink⟩, ends_bind]
        -- what is behind this entry was not touched so far
        have hkeep : ∀ P, branch M P = some (index n) → passed M (index n).val P = false := by
          intro P hb
          rw [Bool.eq_false_iff, Ne, passed_iff]
          rintro ⟨j, hj, hlt⟩
          cases hb.symm.trans hj
          exact Nat.lt_irrefl _ hlt
        have hsub₁ : Subtree (freeTable own (passed M (index n).val)) s₁ (below M (index n)) := by
          refine hsub.child hM (fun x P hb => ?_) fun x P hb hx => hw.mem x ?_ fun Q j hQ hj => ?_
          · rw [freeTable_eq_table]
            exact ⟨fun h => h.1, fun h => ⟨h, hkeep P hb⟩⟩
          · rintro rfl
            cases hp.symm.trans hx
            rw [branch_self] at hb
            cases hb
          · cases hx.symm.trans hQ
            cases hb.symm.trans hj
            exact le_rfl
        have hchild₁ : freeTable own (passed M (index n).val) (pte2pa (s.mem p (index n))) =
            .table (below M (index n)) := by
          refine freeTable_eq_table.2 ⟨hchild, hkeep _ ((under_below hM).1 under_self)⟩
        have hheight := height_below hM (i := index n)
        refine (ih (by omega) hw.heap hsub₁ hchild₁).post fun _ t₂ s₂ h₂ => ?_
        obtain ⟨rfl, hheap₂, hmem₂⟩ := h₂
        rw [Vm.store, ends_lift, PageTables.store, ends_modify]
        have hend := hw.child hp hM hheap₂ hmem₂
        rw [hi] at hend
        exact ⟨rfl, hend⟩
      · rw [if_neg (fun h => hv h.1), if_neg hv, ends_pure]
        have hend := hw.skip fun x P hx hb => hv (hsub.valid hp hx hb)
        rw [hi] at hend
        exact ⟨rfl, hend⟩
    · obtain ⟨htrace, hw⟩ := h₁
      have hkept : freeTable own (passed M (0 + 512)) p = .table M := by
        refine freeTable_eq_table.2 ⟨hp, ?_⟩
        rw [passed, branch_self]
        rfl
      refine (kfree_owns hkend hw.heap (by rw [hkept]; simp)
        (by rw [hkept]; simp)).post ?_
      rintro _ t' s₂ ⟨rfl, hheap, hmem⟩
      rw [hsub.freeTable_all hp] at hheap
      refine ⟨?_, hheap, fun x hx => ?_⟩
      · rw [List.append_nil]
        exact htrace
      have hxp : x ≠ p := by
        rintro rfl
        exact absurd (hx M hp) (by rw [under_self]; exact Bool.noConfusion)
      rw [hmem x hxp]
      refine hw.mem x hxp fun P i hP hi => ?_
      exact absurd (hx P hP) (by rw [under_of_branch hi]; exact Bool.noConfusion)

/-- The page number with the given indices. -/
theorem exists_page (i j k : Fin 512) : ∃ v < 2 ^ 27,
    px 2 (v * pgsize) = i ∧ px 1 (v * pgsize) = j ∧ px 0 (v * pgsize) = k := by
  have hi := i.isLt
  have hj := j.isLt
  have hk := k.isLt
  refine ⟨i.val * 512 ^ 2 + j.val * 512 + k.val, by omega, ?_, ?_, ?_⟩
  · refine Fin.ext ?_
    rw [PageTables.px_page]
    omega
  · refine Fin.ext ?_
    rw [PageTables.px_page]
    omega
  · refine Fin.ext ?_
    rw [PageTables.px_page]
    omega

/-- A table in which nothing is mapped. -/
theorem Tree.subtree (h : Tree own root m s) (hm : ∀ v < 2 ^ 27, m v = none) :
    Subtree own s .root := by
  refine ⟨fun x y P _ hx hy => ?_, fun x P i _ hx hv => ?_, fun x P i _ hP hx => ?_⟩
  · rw [h.pages] at hx hy
    exact Option.some.inj (hx.symm.trans hy)
  · have hupper : ∀ j k, P ≠ .low j k := by
      rintro a b rfl
      have hleaf := h.leaves a b i (s.mem x i)
        (by rw [leaf, (h.pages x _).1 hx, Option.map_some]) hv
      obtain ⟨v, hlt, rfl, rfl, rfl⟩ := exists_page a b i
      have hmap := h.map v hlt
      rw [PageTables.lookup_of_page ((h.pages x _).1 hx), if_pos hleaf, hm v hlt] at hmap
      cases hmap
    refine ⟨hupper, h.inner x P i hx hupper hv, ?_⟩
    rw [h.pages, h.page_below hx hupper, link, if_pos hv]
  · rw [h.pages] at hx
    cases P with
    | root =>
      refine ⟨root, (h.pages root .root).2 rfl, ?_⟩
      by_contra hv
      rw [below, page, link, if_neg hv] at hx
      cases hx
    | mid a =>
      rw [below, page] at hx
      obtain ⟨q, hq, hlink⟩ := Option.bind_eq_some_iff.1 hx
      refine ⟨q, (h.pages q (.mid a)).2 hq, ?_⟩
      by_contra hv
      rw [link, if_neg hv] at hlink
      cases hlink
    | low a b => exact absurd rfl (hP a b)

/-- **`freewalk` of a table in which nothing is mapped** gives all its pages back. -/
theorem freewalk_owns {E : Fault → Prop} (hkend : 0 < kend) (hh : Heap kend own s)
    (ht : Tree own root m s) (hm : ∀ v < 2 ^ 27, m v = none) :
    Ends E (freewalk kend 3 root) s fun _ t s' =>
      t = [] ∧ Heap kend (freeTable own fun _ => true) s' ∧
        ∀ x, (∀ P, own x ≠ .table P) → s'.mem x = s.mem x := by
  have hall : under .root = fun _ => true := by
    funext P
    cases P <;> rfl
  have hroot : own root = .table .root := (ht.pages root .root).2 rfl
  refine (freewalk_subtree hkend le_rfl hh (ht.subtree hm) hroot).post fun _ t s' h => ?_
  rw [hall] at h
  exact ⟨h.1, h.2.1, fun x hx => h.2.2 x fun P hP => absurd hP (hx P)⟩

end Freewalk

end RaidSystem.Vm
