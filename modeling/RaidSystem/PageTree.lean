/-
**Trees of three levels in a memory of pages.**

A page holds one entry for each index, and an entry may link to another page.  The pages that are
reached from a root through at most two links form a tree; the entries of its lowest pages are the
leaves.  As long as no page occurs in the tree twice, storing a leaf leaves all other leaves alone,
and a page that is not in the tree yet can be linked in without disturbing what is there.

Nothing here is about a particular memory.

Main definitions:

* `TreePath`, `PageTree.page` — the places in the tree, and the page at each of them;
* `PageTree.Separate` — no page is in two places;
* `PageTree.leaf` — the leaf at three indices;
* `PageTree.set`, `PageTree.fill` — storing one entry, and filling a page.

Main results:

* `PageTree.page_set_leaf`, `PageTree.leaf_set_leaf` — **storing a leaf**;
* `PageTree.page_link_mid`, `PageTree.page_link_low` — **linking in a new page**;
* `PageTree.page_congr`, `PageTree.leaf_congr` — the rest of the memory does not matter.
-/

import Mathlib.Logic.Function.Basic
import Mathlib.Tactic.SplitIfs

set_option autoImplicit false

/-- The places in a tree of three levels. -/
inductive TreePath (ι : Type)
  | root
  | mid (i : ι)
  | low (i j : ι)
deriving DecidableEq

namespace PageTree

open Function

variable {α ι β : Type} (link : β → Option α)

/-- The page at a place of the tree with root `r`. -/
def page (mem : α → ι → β) (r : α) : TreePath ι → Option α
  | .root => some r
  | .mid i => link (mem r i)
  | .low i j => (link (mem r i)).bind fun p => link (mem p j)

/-- The entry at three indices, if the pages for it are there. -/
def leaf (mem : α → ι → β) (r : α) (i j k : ι) : Option β :=
  (page link mem r (.low i j)).map fun p => mem p k

/-- No page is in two places. -/
def Separate (mem : α → ι → β) (r : α) : Prop :=
  ∀ P Q x, page link mem r P = some x → page link mem r Q = some x → P = Q

/-- The pages that are in the tree. -/
def InTree (mem : α → ι → β) (r x : α) : Prop := ∃ P, page link mem r P = some x

variable [DecidableEq α] [DecidableEq ι]

/-- Store one entry. -/
def set (mem : α → ι → β) (p : α) (i : ι) (e : β) : α → ι → β :=
  update mem p (update (mem p) i e)

/-- Fill a page. -/
def fill (mem : α → ι → β) (p : α) (z : β) : α → ι → β := update mem p fun _ => z

section Frames

variable {mem mem' : α → ι → β} {p q : α} {i j : ι} {e z : β}

omit [DecidableEq ι] in
theorem fill_self : fill mem p z p = fun _ => z := update_self _ _ _

omit [DecidableEq ι] in
theorem fill_of_ne (h : q ≠ p) : fill mem p z q = mem q := update_of_ne h _ _

theorem set_self : set mem p i e p = update (mem p) i e := update_self _ _ _

theorem set_of_ne (h : q ≠ p) : set mem p i e q = mem q := update_of_ne h _ _

theorem set_apply : set mem p i e q j = if q = p ∧ j = i then e else mem q j := by
  rcases eq_or_ne q p with rfl | hq
  · rw [set_self, update_apply]
    by_cases hj : j = i
    · rw [if_pos hj, if_pos ⟨rfl, hj⟩]
    · rw [if_neg hj, if_neg fun h => hj h.2]
  · rw [set_of_ne hq, if_neg fun h => hq h.1]

end Frames

variable {link} {mem mem' : α → ι → β} {r p x : α} {i j k : ι} {e z : β} {P : TreePath ι}

omit [DecidableEq α] [DecidableEq ι] in
/-- Only the entries of the upper two levels matter for the pages. -/
theorem page_congr (hroot : mem' r = mem r)
    (hmid : ∀ i p, page link mem r (.mid i) = some p → mem' p = mem p) :
    page link mem' r = page link mem r := by
  funext P
  cases P with
  | root => rfl
  | mid i => rw [page, hroot, page]
  | low i j =>
    rw [page, hroot, page]
    cases h : link (mem r i) with
    | none => rfl
    | some p => rw [Option.bind_some, Option.bind_some, hmid i p h]

omit [DecidableEq α] [DecidableEq ι] in
theorem leaf_congr (hpage : page link mem' r = page link mem r)
    (hlow : ∀ i j p, page link mem r (.low i j) = some p → mem' p = mem p) :
    leaf link mem' r i j k = leaf link mem r i j k := by
  rw [leaf, leaf, hpage]
  cases h : page link mem r (.low i j) with
  | none => rfl
  | some p => rw [Option.map_some, Option.map_some, hlow i j p h]

omit [DecidableEq α] [DecidableEq ι] in
/-- The rest of the memory does not matter. -/
theorem page_of_agree (h : ∀ x, InTree link mem r x → mem' x = mem x) :
    page link mem' r = page link mem r :=
  page_congr (h r ⟨.root, rfl⟩) fun i p hp => h p ⟨.mid i, hp⟩

omit [DecidableEq α] [DecidableEq ι] in
theorem leaf_of_agree (h : ∀ x, InTree link mem r x → mem' x = mem x) :
    leaf link mem' r i j k = leaf link mem r i j k :=
  leaf_congr (page_of_agree h) fun i j p hp => h p ⟨.low i j, hp⟩

omit [DecidableEq α] [DecidableEq ι] in
theorem Separate.ne (hs : Separate link mem r) {Q : TreePath ι} {y : α}
    (hx : page link mem r P = some x) (hy : page link mem r Q = some y) (h : P ≠ Q) : x ≠ y := by
  rintro rfl
  exact h (hs P Q x hx hy)

/-! ### Storing a leaf -/

section

variable (hs : Separate link mem r) (hp : page link mem r (.low i j) = some p)

include hs hp

/-- **Storing a leaf** does not move pages. -/
theorem page_set_leaf :
    page link (set mem p k e) r = page link mem r := by
  refine page_congr (set_of_ne (hs.ne (P := .root) rfl hp (by simp))) fun i' q hq => ?_
  exact set_of_ne (hs.ne hq hp (by simp))

theorem separate_set_leaf :
    Separate link (set mem p k e) r := by
  unfold Separate
  rw [page_set_leaf hs hp]
  exact hs

/-- **Storing a leaf** changes that leaf only. -/
theorem leaf_set_leaf (i' j' k' : ι) : leaf link (set mem p k e) r i' j' k' =
      if i' = i ∧ j' = j ∧ k' = k then some e else leaf link mem r i' j' k' := by
  rw [leaf, page_set_leaf hs hp, leaf]
  cases hq : page link mem r (.low i' j') with
  | none =>
    rw [if_neg]
    · rfl
    · rintro ⟨rfl, rfl, -⟩
      rw [hp] at hq
      cases hq
  | some q =>
    rw [Option.map_some, Option.map_some, set_apply]
    have hqp : q = p ↔ i' = i ∧ j' = j := by
      constructor
      · rintro rfl
        have hplace := hs _ _ q hq hp
        exact ⟨(TreePath.low.inj hplace).1, (TreePath.low.inj hplace).2⟩
      · rintro ⟨rfl, rfl⟩
        exact Option.some.inj (hq.symm.trans hp)
    by_cases h : i' = i ∧ j' = j ∧ k' = k
    · rw [if_pos h, if_pos ⟨hqp.2 ⟨h.1, h.2.1⟩, h.2.2⟩]
    · rw [if_neg h, if_neg fun h' => h ⟨(hqp.1 h'.1).1, (hqp.1 h'.1).2, h'.2⟩]

end

/-! ### Linking in a page -/

/-- The memory after the page `x` was cleared and linked from entry `i` of page `p`. -/
def grow (mem : α → ι → β) (p : α) (i : ι) (x : α) (z e : β) : α → ι → β := set (fill mem x z) p i e

theorem grow_self (hp : p ≠ x) : grow mem p i x z e p = update (mem p) i e := by
  rw [grow, set_self, fill_of_ne hp]

theorem grow_new (hp : p ≠ x) : grow mem p i x z e x = fun _ => z := by
  rw [grow, set_of_ne hp.symm, fill_self]

theorem grow_of_ne {q : α} (hqp : q ≠ p) (hqx : q ≠ x) : grow mem p i x z e q = mem q := by
  rw [grow, set_of_ne hqp, fill_of_ne hqx]

/-- **A new page of the middle level.** -/
theorem page_link_mid (hs : Separate link mem r) (hz : link z = none) (he : link e = some x)
    (hfresh : ¬ InTree link mem r x) (hnone : link (mem r i) = none) :
    page link (grow mem r i x z e) r P = if P = .mid i then some x else page link mem r P := by
  have hr : r ≠ x := fun h => hfresh ⟨.root, by rw [page, h]⟩
  cases P with
  | root => rfl
  | mid i' =>
    rw [page, grow_self hr, page, update_apply]
    by_cases h : i' = i
    · rw [if_pos h, if_pos (by rw [h]), he]
    · rw [if_neg h, if_neg (by simpa using h)]
  | low i' j' =>
    have hplace : ¬ TreePath.low i' j' = .mid i := nofun
    rw [page, grow_self hr, page, update_apply, if_neg hplace]
    by_cases h : i' = i
    · rw [if_pos h, he, h, hnone, Option.bind_some, Option.bind_none, grow_new hr, hz]
    · rw [if_neg h]
      cases hq : link (mem r i') with
      | none => rfl
      | some q =>
        have hqr : q ≠ r := hs.ne (P := .mid i') (Q := .root) hq rfl nofun
        have hqx : q ≠ x := fun hqx => hfresh ⟨.mid i', by rw [page, hq, hqx]⟩
        rw [Option.bind_some, Option.bind_some, grow_of_ne hqr hqx]

/-- **A new page of the lowest level.** -/
theorem page_link_low (hs : Separate link mem r) (he : link e = some x)
    (hfresh : ¬ InTree link mem r x) (hp : page link mem r (.mid i) = some p) :
    page link (grow mem p j x z e) r P = if P = .low i j then some x else page link mem r P := by
  have hr : r ≠ x := fun h => hfresh ⟨.root, by rw [page, h]⟩
  have hpx : p ≠ x := fun h => hfresh ⟨.mid i, by rw [hp, h]⟩
  have hrp : r ≠ p := hs.ne (P := .root) rfl hp nofun
  cases P with
  | root => rfl
  | mid i' => rw [page, grow_of_ne hrp hr, page, if_neg nofun]
  | low i' j' =>
    rw [page, grow_of_ne hrp hr, page]
    cases hq : link (mem r i') with
    | none =>
      have hne : i' ≠ i := by
        rintro rfl
        rw [page, hq] at hp
        cases hp
      rw [if_neg (by simpa using fun h => absurd h hne)]
      rfl
    | some q =>
      have hqx : q ≠ x := fun hqx => hfresh ⟨.mid i', by rw [page, hq, hqx]⟩
      rw [Option.bind_some, Option.bind_some]
      by_cases hqp : q = p
      · have hplace : i' = i := TreePath.mid.inj (hs _ _ p (by rw [page, hq, hqp]) hp)
        rw [hqp, grow_self hpx, update_apply, hplace]
        by_cases h : j' = j
        · rw [if_pos h, if_pos (by rw [h]), he]
        · rw [if_neg h, if_neg (by simpa using h)]
      · have hne : i' ≠ i := by
          rintro rfl
          rw [page, hq] at hp
          exact hqp (Option.some.inj hp)
        rw [grow_of_ne hqp hqx, if_neg (by simpa using fun h => absurd h hne)]

omit [DecidableEq α] [DecidableEq ι] in
/-- What follows when one place was added to the tree. -/
theorem separate_of_link {N : TreePath ι} [DecidableEq (TreePath ι)] (hs : Separate link mem r)
    (hfresh : ¬ InTree link mem r x)
    (hpage : ∀ P, page link mem' r P = if P = N then some x else page link mem r P) :
    Separate link mem' r := by
  intro P Q y hP hQ
  rw [hpage] at hP hQ
  split_ifs at hP hQ with h₁ h₂ h₃
  · rw [h₁, h₂]
  · exact absurd ⟨Q, hQ.trans hP.symm⟩ hfresh
  · exact absurd ⟨P, hP.trans hQ.symm⟩ hfresh
  · exact hs P Q y hP hQ

omit [DecidableEq α] [DecidableEq ι] in
theorem inTree_of_link {N : TreePath ι} [DecidableEq (TreePath ι)] {y : α}
    (hpage : ∀ P, page link mem' r P = if P = N then some x else page link mem r P)
    (hy : InTree link mem' r y) : y = x ∨ InTree link mem r y := by
  obtain ⟨P, hP⟩ := hy
  rw [hpage] at hP
  split_ifs at hP with h
  · exact .inl (Option.some.inj hP).symm
  · exact .inr ⟨P, hP⟩

/-- The leaves after a page of the middle level was linked in. -/
theorem leaf_link_mid (hs : Separate link mem r) (hz : link z = none) (he : link e = some x)
    (hfresh : ¬ InTree link mem r x) (hnone : link (mem r i) = none) (i' j' k' : ι) :
    leaf link (grow mem r i x z e) r i' j' k' = leaf link mem r i' j' k' := by
  rw [leaf, page_link_mid hs hz he hfresh hnone, if_neg nofun, leaf]
  cases hq : page link mem r (.low i' j') with
  | none => rfl
  | some q =>
    have hqr : q ≠ r := hs.ne (Q := .root) hq rfl nofun
    have hqx : q ≠ x := fun hqx => hfresh ⟨.low i' j', by rw [hq, hqx]⟩
    rw [Option.map_some, Option.map_some, grow_of_ne hqr hqx]

/-- The leaves after a page of the lowest level was linked in: the new ones are clear. -/
theorem leaf_link_low (hs : Separate link mem r) (he : link e = some x)
    (hfresh : ¬ InTree link mem r x) (hp : page link mem r (.mid i) = some p) (i' j' k' : ι) :
    leaf link (grow mem p j x z e) r i' j' k' =
      if i' = i ∧ j' = j then some z else leaf link mem r i' j' k' := by
  have hpx : p ≠ x := fun h => hfresh ⟨.mid i, by rw [hp, h]⟩
  rw [leaf, page_link_low hs he hfresh hp, leaf]
  by_cases h : i' = i ∧ j' = j
  · rw [if_pos (by rw [h.1, h.2]), if_pos h, Option.map_some, grow_new hpx]
  · rw [if_neg (by simpa using h), if_neg h]
    cases hq : page link mem r (.low i' j') with
    | none => rfl
    | some q =>
      have hqp : q ≠ p := hs.ne hq hp nofun
      have hqx : q ≠ x := fun hqx => hfresh ⟨.low i' j', by rw [hq, hqx]⟩
      rw [Option.map_some, Option.map_some, grow_of_ne hqp hqx]

end PageTree
