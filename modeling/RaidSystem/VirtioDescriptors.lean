/-
**The descriptor table of the driver.**

What the four functions of `kernel/virtio_disk.c` that manage descriptors do, in any state.  They
touch the descriptors, the flags `free[i]` and, since `free_desc` calls `wakeup`, the processes that
wait for descriptors; nothing else.

* `freeDescs` — the free descriptors;
* `Taken` — what allocating some descriptors has done;
* `RolledBack` — what is left of an allocation that has been undone;
* `Linked`, `Freed` — a chain of descriptors, and what freeing it has done.

Main results:

* `alloc3Desc_returns` — **`alloc3_desc` never stops**; it takes three free descriptors, or there
  are fewer than three and `free[]` is as before;
* `freeChain_returns` — **`free_chain` frees the chain**, if no descriptor of it is free.
-/

import RaidSystem.VirtioDisk
import Mathlib.Data.Finset.Card

set_option autoImplicit false

namespace RaidSystem.Virtio

open Prog Function

variable {s s' s₁ s₂ : State} {idx : ℕ → ℕ} {d i j k : ℕ}

/-! ### Waking -/

/-- Some processes that were waiting for descriptors have been woken up. -/
def Woken (procs procs' : ℕ → Proc) : Prop := ∀ p, procs' p = procs p ∨
  (procs p).chan = some .free ∧ procs' p = { procs p with chan := none }

theorem Woken.refl (procs : ℕ → Proc) : Woken procs procs := fun _ => .inl rfl

theorem woken_wake (procs : ℕ → Proc) : Woken procs (wake procs .free) := by
  intro p
  unfold wake
  split
  case isTrue h => exact .inr ⟨h, rfl⟩
  case isFalse h => exact .inl rfl

theorem Woken.trans {procs₁ procs₂ procs₃ : ℕ → Proc} (h₁ : Woken procs₁ procs₂)
    (h₂ : Woken procs₂ procs₃) : Woken procs₁ procs₃ := by
  intro p
  rcases h₁ p with e₁ | ⟨c₁, e₁⟩
  · rw [← e₁]
    exact h₂ p
  · rcases h₂ p with e₂ | ⟨c₂, e₂⟩
    · exact .inr ⟨c₁, e₂.trans e₁⟩
    · rw [e₁] at c₂
      cases c₂

/-! ### One descriptor -/

/-- The free descriptors. -/
def freeDescs (free : ℕ → Bool) : Finset ℕ := (Finset.range num).filter fun i => free i = true

theorem mem_freeDescs {free : ℕ → Bool} : i ∈ freeDescs free ↔ i < num ∧ free i = true := by
  rw [freeDescs, Finset.mem_filter, Finset.mem_range]

/-- Taking a descriptor leaves one less. -/
theorem card_freeDescs_take {free : ℕ → Bool} (hi : i < num) (hf : free i = true) :
    (freeDescs (update free i false)).card + 1 = (freeDescs free).card := by
  have herase : freeDescs (update free i false) = (freeDescs free).erase i := by
    ext j
    rw [Finset.mem_erase, mem_freeDescs, mem_freeDescs, update_apply]
    split
    case isTrue h => simp [h]
    case isFalse h => simp [h]
  rw [herase, Finset.card_erase_add_one (mem_freeDescs.2 ⟨hi, hf⟩)]

/-- The state with one descriptor taken. -/
def State.taken (s : State) (d : ℕ) : State :=
  { s with disk := { s.disk with free := update s.disk.free d false } }

@[simp] theorem State.taken_free (s : State) (d : ℕ) :
    (s.taken d).disk.free = update s.disk.free d false := rfl

/-- The loop of `alloc_desc` takes a free descriptor, if there is one left to look at. -/
theorem allocDescFrom_returns (s : State) (i k : ℕ) :
    (∃ d, i ≤ d ∧ d < i + k ∧ s.disk.free d = true ∧
      Returns (allocDescFrom i k) s (some d) (s.taken d)) ∨
    (∀ d, i ≤ d → d < i + k → s.disk.free d = false) ∧ Returns (allocDescFrom i k) s none s := by
  induction k generalizing i with
  | zero => exact .inr ⟨fun d h₁ h₂ => by omega, returns_pure.2 ⟨rfl, rfl⟩⟩
  | succ k ih =>
    rw [allocDescFrom]
    simp only [get_returns.bind_iff]
    cases hf : s.disk.free i with
    | true =>
      refine .inl ⟨i, le_rfl, by omega, hf, ?_⟩
      simp [State.taken]
    | false =>
      simp only [Bool.false_eq_true, if_false]
      rcases ih (i + 1) with ⟨d, h₁, h₂, hd, hr⟩ | ⟨hall, hr⟩
      · exact .inl ⟨d, by omega, by omega, hd, hr⟩
      · refine .inr ⟨fun d h₁ h₂ => ?_, hr⟩
        rcases Nat.eq_or_lt_of_le h₁ with rfl | hlt
        · exact hf
        · exact hall d hlt (by omega)

theorem allocDesc_returns (s : State) :
    (∃ d < num, s.disk.free d = true ∧ Returns allocDesc s (some d) (s.taken d)) ∨
    freeDescs s.disk.free = ∅ ∧ Returns allocDesc s none s := by
  rcases allocDescFrom_returns s 0 num with ⟨d, -, hd, hf, hr⟩ | ⟨hall, hr⟩
  · exact .inl ⟨d, by omega, hf, hr⟩
  · refine .inr ⟨?_, hr⟩
    rw [Finset.eq_empty_iff_forall_notMem]
    intro d hd
    obtain ⟨hlt, hf⟩ := mem_freeDescs.1 hd
    rw [hall d (Nat.zero_le d) (by omega)] at hf
    cases hf

/-- The state after `free_desc`. -/
def State.freed (s : State) (i : ℕ) : State :=
  { s with disk := s.disk.release i, procs := wake s.procs .free }

@[simp] theorem State.freed_free (s : State) (i : ℕ) :
    (s.freed i).disk.free = update s.disk.free i true := rfl

theorem State.freed_desc_of_ne (s : State) (h : d ≠ i) :
    (s.freed i).disk.desc d = s.disk.desc d := update_of_ne h _ _

theorem freeDesc_returns (hi : i < num) (hf : s.disk.free i = false) :
    Returns (freeDesc i) s () (s.freed i) := by
  rw [freeDesc, if_neg (by omega), get_returns.bind_iff, hf]
  simp [wakeup, State.freed]

/-! ### Three descriptors -/

/-- From `s` to `s₁` the descriptors `idx 0, …, idx (i - 1)` have been taken. -/
structure Taken (s s₁ : State) (idx : ℕ → ℕ) (i : ℕ) : Prop where
  rest : s₁ = { s with disk := { s.disk with free := s₁.disk.free } }
  free : ∀ d, s₁.disk.free d = (s.disk.free d && decide (∀ j < i, idx j ≠ d))
  lt : ∀ j < i, idx j < num
  wasFree : ∀ j < i, s.disk.free (idx j) = true
  inj : ∀ j < i, ∀ j' < i, idx j = idx j' → j = j'
  card : (freeDescs s₁.disk.free).card + i = (freeDescs s.disk.free).card

theorem Taken.start (s : State) (idx : ℕ → ℕ) : Taken s s idx 0 := by
  refine ⟨rfl, ?_, ?_, ?_, ?_, rfl⟩
  · simp
  · simp
  · simp
  · simp

/-- One more descriptor is taken. -/
theorem Taken.next (h : Taken s s₁ idx i) (hd : d < num) (hf : s₁.disk.free d = true) :
    Taken s (s₁.taken d) (update idx i d) (i + 1) := by
  have hfree : s.disk.free d = true ∧ ∀ j < i, idx j ≠ d := by
    rw [h.free d] at hf
    simpa using hf
  have hold : ∀ j < i, update idx i d j = idx j := fun j hj =>
    update_of_ne (by omega) _ _
  have hcases : ∀ {P : ℕ → Prop}, (∀ j < i, P j) → P i → ∀ j < i + 1, P j := by
    intro P hlt hi j hj
    rcases Nat.lt_succ_iff_lt_or_eq.1 hj with hj | rfl
    · exact hlt j hj
    · exact hi
  refine ⟨?_, ?_, ?_, ?_, ?_, ?_⟩
  · rw [State.taken, h.rest]
  · intro e
    have hall : (∀ j < i + 1, update idx i d j ≠ e) ↔ (∀ j < i, idx j ≠ e) ∧ d ≠ e := by
      constructor
      · intro hne
        refine ⟨fun j hj => ?_, ?_⟩
        · rw [← hold j hj]
          exact hne j (by omega)
        · simpa using hne i (by omega)
      · rintro ⟨hlt, hi⟩
        refine hcases (fun j hj => ?_) ?_
        · rw [hold j hj]
          exact hlt j hj
        · rwa [update_self]
    have hdec : decide (∀ j < i + 1, update idx i d j ≠ e) =
        (decide (∀ j < i, idx j ≠ e) && decide (d ≠ e)) := by
      rw [← Bool.decide_and, decide_eq_decide]
      exact hall
    rw [hdec, State.taken_free, update_apply, h.free e]
    by_cases hed : e = d
    · simp [hed]
    · simp [hed, Ne.symm hed]
  · refine hcases (fun j hj => ?_) ?_
    · rw [hold j hj]
      exact h.lt j hj
    · rwa [update_self]
  · refine hcases (fun j hj => ?_) ?_
    · rw [hold j hj]
      exact h.wasFree j hj
    · rw [update_self]
      exact hfree.1
  · refine hcases (fun j hj => hcases (fun j' hj' he => ?_) fun he => ?_)
      (hcases (fun j' hj' he => ?_) fun _ => rfl)
    · rw [hold j hj, hold j' hj'] at he
      exact h.inj j hj j' hj' he
    · rw [hold j hj, update_self] at he
      exact absurd he (hfree.2 j hj)
    · rw [hold j' hj', update_self] at he
      exact absurd he.symm (hfree.2 j' hj')
  · have hcard := card_freeDescs_take hd hf
    have hi := h.card
    rw [State.taken_free]
    omega

/-- An allocation has been undone: descriptors that are free may have been cleared, and waiting
processes woken. -/
structure RolledBack (s s' : State) : Prop where
  rest : s' = { s with disk := { s.disk with desc := s'.disk.desc }, procs := s'.procs }
  desc : ∀ d, s.disk.free d = false → s'.disk.desc d = s.disk.desc d
  procs : Woken s.procs s'.procs

/-- A round of the loop that gives the descriptors back. -/
theorem Taken.rollback_round (h : Taken s s₁ idx i) (hj : j < i)
    (hI : s' = { s with
        disk := { s.disk with free := s'.disk.free, desc := s'.disk.desc }, procs := s'.procs } ∧
      (∀ d, s'.disk.free d = (s.disk.free d && decide (∀ l < i, j ≤ l → idx l ≠ d))) ∧
      (∀ d, s.disk.free d = false → s'.disk.desc d = s.disk.desc d) ∧ Woken s.procs s'.procs) :
    ∃ s'', Returns (freeDesc (idx j)) s' () s'' ∧ s'' = { s with
        disk := { s.disk with free := s''.disk.free, desc := s''.disk.desc }, procs := s''.procs } ∧
      (∀ d, s''.disk.free d = (s.disk.free d && decide (∀ l < i, j + 1 ≤ l → idx l ≠ d))) ∧
      (∀ d, s.disk.free d = false → s''.disk.desc d = s.disk.desc d) ∧ Woken s.procs s''.procs := by
  obtain ⟨hrest, hfree, hdesc, hprocs⟩ := hI
  have hused : s'.disk.free (idx j) = false := by
    rw [hfree (idx j), h.wasFree j hj, Bool.true_and, decide_eq_false_iff_not]
    intro hall
    exact hall j hj le_rfl rfl
  refine ⟨s'.freed (idx j), freeDesc_returns (h.lt j hj) hused, ?_, ?_, ?_, ?_⟩
  · rw [State.freed, Disk.release, hrest]
  · intro d
    rw [State.freed_free, update_apply]
    split
    case isTrue hd =>
      subst hd
      rw [h.wasFree j hj, Bool.true_and, eq_comm, decide_eq_true_iff]
      intro l hl hle he
      have := h.inj l hl j hj he
      omega
    case isFalse hd =>
      rw [hfree d]
      congr 1
      rw [decide_eq_decide]
      constructor
      · intro hall l hl hle
        exact hall l hl (by omega)
      · intro hall l hl hle he
        rcases Nat.eq_or_lt_of_le hle with rfl | hlt
        · exact hd he.symm
        · exact hall l hl hlt he
  · intro d hd
    rw [← hdesc d hd]
    refine State.freed_desc_of_ne s' ?_
    rintro rfl
    rw [h.wasFree j hj] at hd
    cases hd
  · exact hprocs.trans (woken_wake _)

/-- The descriptors that have been taken are given back. -/
theorem Taken.rollback (h : Taken s s₁ idx i) :
    ∃ s₂, Returns (forRange (fun j => freeDesc (idx j)) 0 i) s₁ () s₂ ∧ RolledBack s s₂ := by
  -- before round `j` the descriptors from `idx j` on are still taken
  let I : ℕ → State → Prop := fun j s' =>
    s' = { s with
      disk := { s.disk with free := s'.disk.free, desc := s'.disk.desc }, procs := s'.procs } ∧
    (∀ d, s'.disk.free d = (s.disk.free d && decide (∀ l < i, j ≤ l → idx l ≠ d))) ∧
    (∀ d, s.disk.free d = false → s'.disk.desc d = s.disk.desc d) ∧ Woken s.procs s'.procs
  have hloop : ∃ s₂, Returns (forRange (fun j => freeDesc (idx j)) 0 i) s₁ () s₂ ∧
      I (0 + i) s₂ := by
    refine forRange_returns I ?_ ⟨?_, ?_, ?_, ?_⟩
    · exact fun j s' _ hj hI => h.rollback_round (by omega) hI
    · rw [h.rest]
    · intro d
      rw [h.free d]
      simp
    · intro d _
      rw [h.rest]
    · rw [h.rest]
      exact Woken.refl _
  obtain ⟨s₂, hr, hrest, hfree, hdesc, hprocs⟩ := hloop
  refine ⟨s₂, hr, ?_, hdesc, hprocs⟩
  have hsame : s₂.disk.free = s.disk.free := by
    funext d
    rw [hfree d, decide_eq_true (fun l h₁ h₂ => by omega), Bool.and_true]
  rw [hrest, hsame]

theorem alloc3Loop_returns (h : Taken s s₁ idx i) :
    (∃ idx' s', Returns (alloc3Loop idx i k) s₁ (some idx') s' ∧ Taken s s' idx' (i + k)) ∨
    (∃ s', Returns (alloc3Loop idx i k) s₁ none s' ∧ RolledBack s s' ∧
      (freeDescs s.disk.free).card < i + k) := by
  induction k generalizing idx i s₁ with
  | zero => exact .inl ⟨idx, s₁, returns_pure.2 ⟨rfl, rfl⟩, h⟩
  | succ k ih =>
    rw [alloc3Loop]
    rcases allocDesc_returns s₁ with ⟨d, hd, hf, hr⟩ | ⟨hempty, hr⟩
    · simp only [hr.bind_iff]
      have hrest := ih (h.next hd hf)
      rwa [show i + 1 + k = i + (k + 1) by omega] at hrest
    · simp only [hr.bind_iff]
      obtain ⟨s₂, hback, hs₂⟩ := h.rollback
      refine .inr ⟨s₂, ?_, hs₂, ?_⟩
      · rw [hback.bind_iff]
        exact returns_pure.2 ⟨rfl, rfl⟩
      · have hcard := h.card
        rw [hempty, Finset.card_empty] at hcard
        omega

/-- **All that `alloc3_desc` can do.** -/
theorem alloc3Desc_returns (s : State) :
    (∃ idx s', Returns alloc3Desc s (some idx) s' ∧ Taken s s' idx 3) ∨
    (∃ s', Returns alloc3Desc s none s' ∧ RolledBack s s' ∧
      (freeDescs s.disk.free).card < 3) :=
  alloc3Loop_returns (Taken.start s _)

/-! ### Chains -/

/-- The descriptors of the list form a chain. -/
def Linked (desc : ℕ → VirtqDesc) : List ℕ → Prop
  | [] => True
  | [i] => (desc i).flags.testBit 0 = false
  | i :: j :: l => (desc i).flags.testBit 0 = true ∧ (desc i).next = j ∧ Linked desc (j :: l)

theorem Linked.congr {desc desc' : ℕ → VirtqDesc} {l : List ℕ} (h : Linked desc l)
    (heq : ∀ i ∈ l, desc' i = desc i) : Linked desc' l := by
  induction l with
  | nil => trivial
  | cons i l ih =>
    cases l with
    | nil =>
      rw [Linked, heq i List.mem_cons_self]
      exact h
    | cons j l =>
      rw [Linked, heq i List.mem_cons_self]
      exact ⟨h.1, h.2.1, ih h.2.2 fun e he => heq e (List.mem_cons_of_mem _ he)⟩

/-- From `s` to `s'` the descriptors of the list have been freed. -/
structure Freed (s s' : State) (l : List ℕ) : Prop where
  rest : s' = { s with
    disk := { s.disk with free := s'.disk.free, desc := s'.disk.desc }, procs := s'.procs }
  free : ∀ d, s'.disk.free d = (s.disk.free d || decide (d ∈ l))
  desc : ∀ d ∉ l, s'.disk.desc d = s.disk.desc d
  procs : Woken s.procs s'.procs

theorem Freed.cons {l : List ℕ} (h : Freed (s.freed i) s' l) : Freed s s' (i :: l) := by
  refine ⟨?_, ?_, ?_, (woken_wake _).trans h.procs⟩
  · rw [h.rest, State.freed, Disk.release]
  · intro d
    rw [h.free d, State.freed_free, update_apply]
    by_cases hd : d = i
    · simp [hd]
    · simp [hd]
  · intro d hd
    rw [List.mem_cons, not_or] at hd
    rw [h.desc d hd.2, State.freed_desc_of_ne s hd.1]

/-- **The loop of `free_chain` frees a chain.** -/
theorem freeChainLoop_returns {l : List ℕ} {fuel : ℕ} (hlink : Linked s.disk.desc (i :: l))
    (hnodup : (i :: l).Nodup) (hlt : ∀ d ∈ i :: l, d < num)
    (hused : ∀ d ∈ i :: l, s.disk.free d = false) (hfuel : l.length < fuel) :
    ∃ s', Returns (freeChainLoop fuel i) s () s' ∧ Freed s s' (i :: l) := by
  induction l generalizing s i fuel with
  | nil =>
    obtain ⟨fuel, rfl⟩ : ∃ k, fuel = k + 1 := ⟨fuel - 1, by omega⟩
    have hfree := freeDesc_returns (hlt i List.mem_cons_self) (hused i List.mem_cons_self)
    refine ⟨s.freed i, ?_, Freed.cons ⟨rfl, by simp, fun _ _ => rfl, Woken.refl _⟩⟩
    have hlast : (s.disk.desc i).flags.testBit 0 = false := hlink
    rw [freeChainLoop, get_returns.bind_iff, hfree.bind_iff, hlast]
    exact returns_pure.2 ⟨rfl, rfl⟩
  | cons j l ih =>
    obtain ⟨fuel, rfl⟩ : ∃ k, fuel = k + 1 := ⟨fuel - 1, by simp at hfuel; omega⟩
    have hfree := freeDesc_returns (hlt i List.mem_cons_self) (hused i List.mem_cons_self)
    obtain ⟨hflag, hnext, hrest⟩ := hlink
    rw [List.nodup_cons] at hnodup
    have hne : ∀ d ∈ j :: l, d ≠ i := fun d hd he => hnodup.1 (he ▸ hd)
    have hlink' : Linked (s.freed i).disk.desc (j :: l) :=
      hrest.congr fun d hd => s.freed_desc_of_ne (hne d hd)
    have hused' : ∀ d ∈ j :: l, (s.freed i).disk.free d = false := by
      intro d hd
      rw [State.freed_free, update_of_ne (hne d hd)]
      exact hused d (List.mem_cons_of_mem _ hd)
    have hlen : l.length < fuel := by simpa using hfuel
    obtain ⟨s', hr, hs'⟩ := ih hlink' hnodup.2 (fun d hd => hlt d (List.mem_cons_of_mem _ hd))
      hused' hlen
    refine ⟨s', ?_, hs'.cons⟩
    rw [freeChainLoop, get_returns.bind_iff, hfree.bind_iff, hflag, hnext]
    exact hr

theorem freeChain_returns {l : List ℕ} (hlink : Linked s.disk.desc (i :: l))
    (hnodup : (i :: l).Nodup) (hlt : ∀ d ∈ i :: l, d < num)
    (hused : ∀ d ∈ i :: l, s.disk.free d = false) (hlen : l.length ≤ num) :
    ∃ s', Returns (freeChain i) s () s' ∧ Freed s s' (i :: l) :=
  freeChainLoop_returns hlink hnodup hlt hused (Nat.lt_succ_of_le hlen)

end RaidSystem.Virtio
