/-
**Chains of nodes.**

A singly linked list: each node points to the next one, and the last one to a mark that is no node.
The pointers determine the list, and no node is in it twice, since following them from a node that
comes back would never end.

Nothing here is about particular nodes.

* `PointerChain` — from a node the pointers lead through the nodes of a list;
* `PointerChain.unique` — **the pointers determine the list**;
* `PointerChain.nodup` — **no node is in it twice**;
* `PointerChain.congr` — the pointers of other nodes do not matter.
-/

import Mathlib.Data.List.Nodup

set_option autoImplicit false

/-- From `a` the pointers lead through the nodes of `l`, and from the last one to `z`. -/
inductive PointerChain {α : Type} (next : α → α) (z : α) : α → List α → Prop
  | nil : PointerChain next z z []
  | cons {a : α} {l : List α} (ha : a ≠ z) (h : PointerChain next z (next a) l) :
      PointerChain next z a (a :: l)

namespace PointerChain

variable {α : Type} {next next' : α → α} {z a x : α} {l l' : List α}

section

variable (h : PointerChain next z a l)

include h

/-- The pointers of other nodes do not matter. -/
theorem congr (hnext : ∀ x ∈ l, next' x = next x) :
    PointerChain next' z a l := by
  induction h with
  | nil => exact .nil
  | cons ha _ ih =>
    refine .cons ha ?_
    rw [hnext _ List.mem_cons_self]
    exact ih fun x hx => hnext x (List.mem_cons_of_mem _ hx)

/-- **The pointers determine the list.** -/
theorem unique (h' : PointerChain next z a l') : l = l' := by
  induction h generalizing l' with
  | nil =>
    cases h' with
    | nil => rfl
    | cons ha _ => exact absurd rfl ha
  | cons ha _ ih =>
    cases h' with
    | nil => exact absurd rfl ha
    | cons _ h' => rw [ih h']

/-- From a node of the chain the pointers lead through the rest of it. -/
theorem exists_rest (hx : x ∈ l) :
    ∃ l', PointerChain next z x l' ∧ l'.length ≤ l.length := by
  induction h with
  | nil => cases hx
  | @cons a l ha h ih =>
    rcases List.mem_cons.1 hx with rfl | hx
    · exact ⟨x :: l, .cons ha h, Nat.le_refl _⟩
    · obtain ⟨l', h', hle⟩ := ih hx
      exact ⟨l', h', Nat.le_succ_of_le hle⟩

/-- **No node is in a chain twice.** -/
theorem nodup : l.Nodup := by
  induction h with
  | nil => exact List.nodup_nil
  | @cons a l ha h ih =>
    refine List.nodup_cons.2 ⟨fun hmem => ?_, ih⟩
    -- the rest of the list would be as long as the whole of it
    obtain ⟨l', h', hle⟩ := h.exists_rest hmem
    rw [← (PointerChain.cons ha h).unique h', List.length_cons] at hle
    exact Nat.not_succ_le_self _ hle

/-- A chain from a node begins with that node. -/
theorem eq_cons (ha : a ≠ z) :
    ∃ l', l = a :: l' ∧ PointerChain next z (next a) l' := by
  cases h with
  | nil => exact absurd rfl ha
  | cons _ h => exact ⟨_, rfl, h⟩

end

end PointerChain
