/-
**Queues in a ring, with free-running indices.**

A producer and a consumer share an array of `n` cells.  Each of them keeps an index that it only
ever increments, modulo some `M` that is larger than `n`; the cell of index `i` is `i % n`.  The
queue holds the cells from the consumer's index `lo` up to, and without, the producer's index `hi`.
Since `n` divides `M`, the cells stay in order when an index wraps around.

Nothing here is about a particular queue.

* `Ring.distance` — how far `hi` is ahead of `lo`;
* `Ring.contents` — the entries of the queue, oldest first;
* `Ring.contents_push`, `Ring.contents_pop` — **what the two sides do to it**: storing at `hi` and
  incrementing `hi` appends an entry, as long as the queue holds fewer than `n`; incrementing `lo`
  removes the entry at `lo`.
-/

import Mathlib.Algebra.Order.Group.Nat
import Mathlib.Data.Nat.ModEq
import Mathlib.Logic.Function.Basic

set_option autoImplicit false

namespace Ring

open Function

/-- The number of increments, modulo `M`, that lead from `lo` to `hi`. -/
def distance (M lo hi : ℕ) : ℕ := (hi + (M - lo)) % M

/-- The `k` entries from index `lo` on. -/
def entries {α : Type} (n M : ℕ) (ring : ℕ → α) : ℕ → ℕ → List α
  | _, 0 => []
  | lo, k + 1 => ring (lo % n) :: entries n M ring ((lo + 1) % M) k

/-- The entries of the queue, oldest first. -/
def contents {α : Type} (n M : ℕ) (ring : ℕ → α) (lo hi : ℕ) : List α :=
  entries n M ring lo (distance M lo hi)

variable {α : Type} {n M : ℕ} {ring : ℕ → α} {lo hi k : ℕ}

section Distance

theorem distance_self (h : lo < M) : distance M lo lo = 0 := by
  rw [distance, Nat.add_sub_cancel' h.le, Nat.mod_self]

theorem distance_lt (h : lo < M) : distance M lo hi < M := Nat.mod_lt _ (by omega)

/-- After `k` increments the distance is `k`. -/
theorem distance_add (hlo : lo < M) (hk : k < M) : distance M lo ((lo + k) % M) = k := by
  rw [distance, Nat.mod_add_mod, show lo + k + (M - lo) = k + M by omega, Nat.add_mod_right,
    Nat.mod_eq_of_lt hk]

theorem add_distance (hlo : lo < M) (hhi : hi < M) : (lo + distance M lo hi) % M = hi := by
  rw [distance, Nat.add_mod_mod, show lo + (hi + (M - lo)) = hi + M by omega, Nat.add_mod_right,
    Nat.mod_eq_of_lt hhi]

/-- The producer gets one step ahead. -/
theorem distance_succ (hlo : lo < M) (hhi : hi < M) (h : distance M lo hi + 1 < M) :
    distance M lo ((hi + 1) % M) = distance M lo hi + 1 := by
  have hnext : (lo + (distance M lo hi + 1)) % M = (hi + 1) % M := by
    rw [← Nat.add_assoc, ← Nat.mod_add_mod, add_distance hlo hhi]
  rw [← hnext, distance_add hlo h]

/-- The consumer catches up by one step. -/
theorem distance_pred (hlo : lo < M) (hhi : hi < M) (h : lo ≠ hi) :
    distance M lo hi = distance M ((lo + 1) % M) hi + 1 := by
  have hpos : distance M lo hi ≠ 0 := by
    intro hzero
    have hadd := add_distance hlo hhi
    rw [hzero, Nat.add_zero, Nat.mod_eq_of_lt hlo] at hadd
    exact h hadd
  have hlt : distance M lo hi < M := distance_lt hlo
  have hhi' : ((lo + 1) % M + (distance M lo hi - 1)) % M = hi := by
    rw [Nat.mod_add_mod, show lo + 1 + (distance M lo hi - 1) = lo + distance M lo hi by omega,
      add_distance hlo hhi]
  have hstep := distance_add (k := distance M lo hi - 1)
    (Nat.mod_lt (lo + 1) (show M > 0 by omega)) (by omega)
  rw [hhi'] at hstep
  omega

end Distance

section Contents

@[simp] theorem length_entries : (entries n M ring lo k).length = k := by
  induction k generalizing lo with
  | zero => rfl
  | succ k ih => rw [entries, List.length_cons, ih]

theorem length_contents : (contents n M ring lo hi).length = distance M lo hi := length_entries

theorem contents_self (h : lo < M) : contents n M ring lo lo = [] := by
  rw [contents, distance_self h, entries]

/-- **The consumer takes the oldest entry.** -/
theorem contents_pop (hlo : lo < M) (hhi : hi < M) (h : lo ≠ hi) :
    contents n M ring lo hi = ring (lo % n) :: contents n M ring ((lo + 1) % M) hi := by
  rw [contents, distance_pred hlo hhi h, entries, contents]

/-- Two indices less than `n` apart have different cells. -/
theorem mod_ne_mod_add (hk : 0 < k) (hkn : k < n) : lo % n ≠ (lo + k) % n := by
  intro h
  have hmod : lo + 0 ≡ lo + k [MOD n] := h
  have hzero : 0 ≡ k [MOD n] := hmod.add_left_cancel'
  rw [Nat.ModEq, Nat.zero_mod, Nat.mod_eq_of_lt hkn] at hzero
  omega

/-- Storing behind the last entry appends. -/
theorem entries_push (hdvd : n ∣ M) (hk : k < n) (x : α) :
    entries n M (update ring ((lo + k) % M % n) x) lo (k + 1) =
      entries n M ring lo k ++ [x] := by
  induction k generalizing lo with
  | zero =>
    rw [Nat.add_zero, Nat.mod_mod_of_dvd lo hdvd]
    simp [entries]
  | succ k ih =>
    have hcell : lo % n ≠ (lo + (k + 1)) % M % n := by
      rw [Nat.mod_mod_of_dvd _ hdvd]
      exact mod_ne_mod_add (by omega) hk
    have hrest : entries n M (update ring (((lo + 1) % M + k) % M % n) x) ((lo + 1) % M)
        (k + 1) = _ := ih (by omega)
    rw [Nat.mod_add_mod, show lo + 1 + k = lo + (k + 1) by omega] at hrest
    rw [entries, update_of_ne hcell, hrest, entries, List.cons_append]

/-- **The producer appends an entry.** -/
theorem contents_push (hdvd : n ∣ M) (hnM : n < M) (hlo : lo < M) (hhi : hi < M)
    (hlen : (contents n M ring lo hi).length < n) (x : α) :
    contents n M (update ring (hi % n) x) lo ((hi + 1) % M) =
      contents n M ring lo hi ++ [x] := by
  rw [length_contents] at hlen
  have hpush : entries n M (update ring ((lo + distance M lo hi) % M % n) x) lo _ =
      entries n M ring lo _ ++ [x] := entries_push hdvd hlen x
  rw [add_distance hlo hhi] at hpush
  rw [contents, distance_succ hlo hhi (by omega), hpush, contents]

end Contents

end Ring
