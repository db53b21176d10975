/-
**Doubly linked rings.**

Nodes that point to a next and a previous node, and a ring of them: starting at a node `head` and
following the next pointers one meets the nodes of a list, each once, and comes back to `head`; and
the previous pointers lead the same way back.

Nothing here is about particular nodes.

Main definitions:

* `Links` — the two pointers of every node;
* `Links.unlink`, `Links.pushFront` — taking a node out of the ring it is in, and putting a node
  behind `head`, by the assignments one writes for them;
* `Links.Seg`, `Links.IsRing` — a stretch of nodes that are linked both ways, and a ring;
* `scan` — a loop that follows a pointer until it finds what it looks for or meets `head`.

Main results:

* `Links.IsRing.unlink`, `Links.IsRing.pushFront` — **the two operations keep the ring**;
* `Links.IsRing.foldl_pushFront` — making a ring of the nodes of a list;
* `Links.IsRing.scan_next`, `Links.IsRing.scan_prev` — the loop in the two directions finds the
  first, or the last, node of the list that satisfies a test.
-/

import Mathlib.Data.List.Nodup
import Mathlib.Logic.Function.Basic

set_option autoImplicit false

/-- The pointers of the nodes. -/
structure Links (α : Type) where
  next : α → α
  prev : α → α

namespace Links

open Function

variable {α : Type} {k k' : Links α} {a b c x head : α} {l l₁ l₂ : List α}

/-- `b->next->prev = b->prev; b->prev->next = b->next`. -/
def unlink [DecidableEq α] (k : Links α) (b : α) : Links α :=
  let k₁ : Links α := { k with prev := update k.prev (k.next b) (k.prev b) }
  { k₁ with next := update k₁.next (k₁.prev b) (k₁.next b) }

/-- `b->next = head.next; b->prev = &head; head.next->prev = b; head.next = b`. -/
def pushFront [DecidableEq α] (k : Links α) (head b : α) : Links α :=
  let k₁ : Links α := { k with next := update k.next b (k.next head) }
  let k₂ : Links α := { k₁ with prev := update k₁.prev b head }
  let k₃ : Links α := { k₂ with prev := update k₂.prev (k₂.next head) b }
  { k₃ with next := update k₃.next head b }

/-- The two directions exchanged. -/
def swap (k : Links α) : Links α := ⟨k.prev, k.next⟩

/-- From `a` the next pointers lead through the nodes of `l`, of which `b` is the last, and the
previous pointers lead back. -/
def Seg (k : Links α) : α → List α → α → Prop
  | a, [], b => a = b
  | a, x :: l, b => k.next a = x ∧ k.prev x = a ∧ k.Seg x l b

/-- The nodes of `l` and `head` form a ring, in this order. -/
structure IsRing (k : Links α) (head : α) (l : List α) : Prop where
  nodup : (head :: l).Nodup
  seg : k.Seg head (l ++ [head]) head

/-! ### Segments -/

namespace Seg

theorem append_iff : k.Seg a (l₁ ++ l₂) c ↔ ∃ b, k.Seg a l₁ b ∧ k.Seg b l₂ c := by
  induction l₁ generalizing a with
  | nil => simp [Seg]
  | cons x l₁ ih =>
    simp only [List.cons_append, Seg, ih]
    constructor
    · rintro ⟨hnext, hprev, b, h₁, h₂⟩
      exact ⟨b, ⟨hnext, hprev, h₁⟩, h₂⟩
    · rintro ⟨b, ⟨hnext, hprev, h₁⟩, h₂⟩
      exact ⟨hnext, hprev, b, h₁, h₂⟩

theorem end_mem (h : k.Seg a l b) : b ∈ a :: l := by
  induction l generalizing a with
  | nil =>
    cases h
    exact List.mem_cons_self
  | cons x l ih => exact List.mem_cons_of_mem _ (ih h.2.2)

/-- A segment depends on the next pointers of its nodes but the last, and on the previous pointers
of its nodes but the first. -/
theorem congr (h : k.Seg a l b) (hnodup : (a :: l).Nodup)
    (hnext : ∀ x ∈ a :: l, x ≠ b → k'.next x = k.next x) (hprev : ∀ x ∈ l, k'.prev x = k.prev x) :
    k'.Seg a l b := by
  induction l generalizing a with
  | nil => exact h
  | cons x l ih =>
    obtain ⟨hn, hp, hrest⟩ := h
    obtain ⟨hmem, hnodup⟩ := List.nodup_cons.1 hnodup
    have hne : a ≠ b := by
      rintro rfl
      exact hmem hrest.end_mem
    refine ⟨?_, ?_, ih hrest hnodup ?_ ?_⟩
    · rw [hnext a List.mem_cons_self hne, hn]
    · rw [hprev x List.mem_cons_self, hp]
    · exact fun y hy => hnext y (List.mem_cons_of_mem _ hy)
    · exact fun y hy => hprev y (List.mem_cons_of_mem _ hy)

/-- The same way back. -/
theorem swap (h : k.Seg a l b) : k.swap.Seg b ((a :: l).reverse.tail) a := by
  induction l generalizing a with
  | nil =>
    cases h
    rfl
  | cons x l ih =>
    obtain ⟨hn, hp, hrest⟩ := h
    have hback := ih hrest
    have htail : (a :: x :: l).reverse.tail = (x :: l).reverse.tail ++ [a] := by
      rw [List.reverse_cons]
      exact List.tail_append_of_ne_nil (by simp)
    rw [htail, append_iff]
    exact ⟨x, hback, hp, hn, rfl⟩

end Seg

/-! ### Rings -/

namespace IsRing

/-- Where the next pointer of `head` leads. -/
theorem exists_first (l : List α) (head : α) : ∃ z m, l ++ [head] = z :: m := by
  cases l with
  | nil => exact ⟨head, [], rfl⟩
  | cons z l => exact ⟨z, l ++ [head], rfl⟩

theorem nodup_append (h : k.IsRing head l) : (l ++ [head]).Nodup := by
  rw [List.nodup_append_comm]
  exact h.nodup

/-- The previous pointers undo the next pointers. -/
theorem prev_next (h : k.Seg a l b) (hx : x ∈ (a :: l).dropLast) : k.prev (k.next x) = x := by
  induction l generalizing a with
  | nil => cases hx
  | cons y l ih =>
    obtain ⟨hn, hp, hrest⟩ := h
    rw [List.dropLast_cons_of_ne_nil (by simp)] at hx
    rcases List.mem_cons.1 hx with rfl | hx
    · rw [hn, hp]
    · exact ih hrest hx

theorem left_inverse (h : k.IsRing head l) (hx : x ∈ head :: l) : k.prev (k.next x) = x := by
  refine prev_next h.seg ?_
  rwa [← List.cons_append, List.dropLast_concat]

/-- The ring in the other direction. -/
theorem swap (h : k.IsRing head l) : k.swap.IsRing head l.reverse := by
  refine ⟨?_, ?_⟩
  · rw [← List.nodup_reverse, List.reverse_cons, List.reverse_reverse]
    exact h.nodup_append
  · have hback := h.seg.swap
    rwa [← List.cons_append, List.reverse_append, List.reverse_singleton, List.singleton_append,
      List.tail_cons, List.reverse_cons] at hback

theorem right_inverse (h : k.IsRing head l) (hx : x ∈ head :: l) : k.next (k.prev x) = x := by
  refine h.swap.left_inverse ?_
  rcases List.mem_cons.1 hx with rfl | hx
  · exact List.mem_cons_self
  · exact List.mem_cons_of_mem _ (List.mem_reverse.2 hx)

/-- A ring of one node. -/
theorem of_self (hnext : k.next head = head) (hprev : k.prev head = head) : k.IsRing head [] :=
  ⟨List.nodup_singleton _, hnext, hprev, rfl⟩

variable [DecidableEq α]

/-- **Taking a node out.** -/
theorem unlink (h : k.IsRing head (l₁ ++ b :: l₂)) : (k.unlink b).IsRing head (l₁ ++ l₂) := by
  obtain ⟨hhead, hrest⟩ := List.nodup_cons.1 h.nodup
  obtain ⟨hnodup₁, hnodup₂, hdisj⟩ := List.nodup_append.1 hrest
  obtain ⟨hb, hnodup₂⟩ := List.nodup_cons.1 hnodup₂
  rw [List.mem_append, not_or, List.mem_cons, not_or] at hhead
  obtain ⟨hhead₁, hbhead, hhead₂⟩ := hhead
  refine ⟨h.nodup.sublist (((List.sublist_cons_self b l₂).append_left l₁).cons_cons head), ?_⟩
  -- `y` and `z` are the nodes before and after `b`
  have hseg := h.seg
  rw [List.append_assoc, List.cons_append] at hseg
  obtain ⟨y, hleft, hyb, hby, hright⟩ := Seg.append_iff.1 hseg
  obtain ⟨z, m, hz⟩ := exists_first l₂ head
  rw [hz] at hright
  obtain ⟨hbz, hzb, hright⟩ := hright
  have hzmem : ∀ x ∈ z :: m, x ∈ l₂ ∨ x = head := by
    intro x hx
    rw [← hz, List.mem_append, List.mem_singleton] at hx
    exact hx
  have hzm : (z :: m).Nodup := by
    rw [← hz, List.nodup_append_comm]
    exact List.nodup_cons.2 ⟨hhead₂, hnodup₂⟩
  have hbne : b ≠ z := by
    intro hbz
    rcases hzmem z List.mem_cons_self with hz | hz
    · exact hb (hbz ▸ hz)
    · exact hbhead (hz.symm.trans hbz.symm)
  have hprev : (k.unlink b).prev = update k.prev z y := by
    simp only [Links.unlink, hbz, hby]
  have hnext : (k.unlink b).next = update k.next y z := by
    simp only [Links.unlink, hbz, hby, update_of_ne hbne]
  rw [List.append_assoc, hz, Seg.append_iff]
  refine ⟨y, ?_, ?_, ?_, ?_⟩
  · refine hleft.congr (List.nodup_cons.2 ⟨hhead₁, hnodup₁⟩) ?_ ?_
    · intro x _ hx
      rw [hnext, update_of_ne hx]
    · intro x hx
      rw [hprev, update_of_ne]
      rintro rfl
      rcases hzmem x List.mem_cons_self with hz | rfl
      · exact hdisj x hx x (List.mem_cons_of_mem _ hz) rfl
      · exact hhead₁ hx
  · rw [hnext, update_self]
  · rw [hprev, update_self]
  · refine hright.congr hzm ?_ ?_
    · intro x hx hne
      rw [hnext, update_of_ne]
      rintro rfl
      have hmem := (hzmem x hx).resolve_right hne
      rcases List.mem_cons.1 hleft.end_mem with rfl | hy
      · exact hne rfl
      · exact hdisj x hy x (List.mem_cons_of_mem _ hmem) rfl
    · intro x hx
      rw [hprev, update_of_ne]
      rintro rfl
      exact (List.nodup_cons.1 hzm).1 hx

/-- **Putting a node behind `head`.** -/
theorem pushFront (h : k.IsRing head l) (hb : b ∉ head :: l) :
    (k.pushFront head b).IsRing head (b :: l) := by
  obtain ⟨hhead, hnodup⟩ := List.nodup_cons.1 h.nodup
  rw [List.mem_cons, not_or] at hb
  obtain ⟨hbhead, hbl⟩ := hb
  refine ⟨?_, ?_⟩
  · simp only [List.nodup_cons, List.mem_cons, not_or]
    exact ⟨⟨Ne.symm hbhead, hhead⟩, hbl, hnodup⟩
  have hseg := h.seg
  have hzm := h.nodup_append
  obtain ⟨z, m, hz⟩ := exists_first l head
  rw [hz] at hseg hzm
  obtain ⟨hn, hp, hrest⟩ := hseg
  have hzmem : ∀ x ∈ z :: m, x ≠ b := by
    rintro x hx rfl
    rw [← hz, List.mem_append, List.mem_singleton] at hx
    exact hx.elim hbl hbhead
  have hnext : (k.pushFront head b).next = update (update k.next b z) head b := by
    simp only [Links.pushFront, hn]
  have hprev : (k.pushFront head b).prev = update (update k.prev b head) z b := by
    simp only [Links.pushFront, update_of_ne (Ne.symm hbhead), hn]
  rw [List.cons_append, hz]
  refine ⟨?_, ?_, ?_, ?_, ?_⟩
  · rw [hnext, update_self]
  · rw [hprev, update_of_ne (hzmem z List.mem_cons_self).symm, update_self]
  · rw [hnext, update_of_ne hbhead, update_self]
  · rw [hprev, update_self]
  · refine hrest.congr hzm ?_ ?_
    · intro x hx hne
      rw [hnext, update_of_ne hne, update_of_ne (hzmem x hx)]
    · intro x hx
      rw [hprev, update_of_ne, update_of_ne (hzmem x (List.mem_cons_of_mem _ hx))]
      rintro rfl
      exact (List.nodup_cons.1 hzm).1 hx

/-- Putting nodes behind `head` one after the other. -/
theorem foldl_pushFront {m : List α} (h : k.IsRing head l) (hm : (head :: (m ++ l)).Nodup) :
    (m.foldl (fun k b => k.pushFront head b) k).IsRing head (m.reverse ++ l) := by
  induction m generalizing k l with
  | nil => exact h
  | cons b m ih =>
    have hperm : (head :: (b :: m ++ l)).Perm (b :: (head :: (m ++ l))) := List.Perm.swap ..
    have hb : b ∉ head :: l := fun hb =>
      (List.nodup_cons.1 (hperm.nodup_iff.1 hm)).1
        ((List.sublist_append_right m l).cons_cons head |>.subset hb)
    have hm' : (head :: (m ++ b :: l)).Nodup := by
      rw [List.nodup_cons, List.nodup_middle] at *
      exact ⟨fun hmem => hm.1 (by simpa [or_left_comm] using hmem), hm.2⟩
    rw [List.foldl_cons, List.reverse_cons, List.append_assoc]
    exact ih (h.pushFront hb) hm'

end IsRing

end Links

/-! ### Loops along a ring -/

/-- How a loop along a ring ends: at a node, at the end, or not before the fuel is used up. -/
inductive Scan (α : Type)
  | found (x : α)
  | ended
  | looping

/-- The end of a loop that looks at all nodes. -/
def Scan.ofOption {α : Type} : Option α → Scan α
  | some x => .found x
  | none => .ended

/-- Follow `next` from `x` on until the node `stop`, and look for a node that satisfies `test`. -/
def scan {α : Type} [DecidableEq α] (next : α → α) (stop : α) (test : α → Bool) : ℕ → α → Scan α
  | 0, _ => .looping
  | fuel + 1, x =>
    if x = stop then .ended
    else if test x then .found x
    else scan next stop test fuel (next x)

namespace Links

variable {α : Type} [DecidableEq α] {k : Links α} {head : α} {l : List α} {test : α → Bool}
  {fuel : ℕ}

theorem Seg.scan_next {a : α} (h : k.Seg a (l ++ [head]) head) (hl : head ∉ l)
    (hfuel : l.length < fuel) :
    scan k.next head test fuel (k.next a) = .ofOption (l.find? test) := by
  induction l generalizing a fuel with
  | nil =>
    obtain ⟨fuel, rfl⟩ : ∃ f, fuel = f + 1 := Nat.exists_eq_add_one.2 hfuel
    rw [h.1, scan, if_pos rfl]
    rfl
  | cons x l ih =>
    obtain ⟨fuel, rfl⟩ : ∃ f, fuel = f + 1 := Nat.exists_eq_add_one.2 (Nat.zero_lt_of_lt hfuel)
    obtain ⟨hn, -, hrest⟩ := h
    rw [List.mem_cons, not_or] at hl
    rw [hn, scan, if_neg (Ne.symm hl.1)]
    cases htest : test x with
    | true => simp [htest, Scan.ofOption]
    | false =>
      rw [if_neg (by simp), ih hrest hl.2 (Nat.lt_of_succ_lt_succ hfuel),
        List.find?_cons_of_neg (by simp [htest])]

/-- **The loop along the next pointers** finds the first node that satisfies the test. -/
theorem IsRing.scan_next (h : k.IsRing head l) (hfuel : l.length < fuel) :
    scan k.next head test fuel (k.next head) = .ofOption (l.find? test) :=
  h.seg.scan_next (List.nodup_cons.1 h.nodup).1 hfuel

/-- **The loop along the previous pointers** finds the last node that satisfies the test. -/
theorem IsRing.scan_prev (h : k.IsRing head l) (hfuel : l.length < fuel) :
    scan k.prev head test fuel (k.prev head) = .ofOption (l.reverse.find? test) :=
  h.swap.scan_next (by rwa [List.length_reverse])

end Links
