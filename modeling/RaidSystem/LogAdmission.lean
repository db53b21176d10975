/-
**The log: how many operations fit into it.**

The file system groups the block writes of an operation between `begin_op` and `end_op`
(`kernel/log.c`).  `begin_op` lets an operation in as long as there would be room for ten blocks of
each operation in progress; `log_write` records a block, and stops the kernel when there is no room.
The two do not count in the same way: `begin_op` divides all `LOGSIZE` blocks among the operations,
but one of them is the header, and `log_write` looks for a free place even for a block that is
recorded already.  Three operations of ten blocks each are let in, and the last block stops the
kernel.

Main definitions:

* `Logheader`, `Logheader.record` — the list of recorded blocks, and how `log_write` extends it;
* `State`, `step` — the counters of `struct log` and processes that are in an operation, commit, or
  do neither;
* `opBlocks` — the blocks that an operation has recorded;
* `NeverTooBig` — no run of allowed steps leads to the panic of `log_write`.

Main results:

* `Logheader.blocks_record` — recording a block appends it, unless it is there already;
* `log_never_overflows` — **the panic is not reached if operations record at most nine blocks**, and
  more generally if each is let in only when two places would be left over;
* `three_operations_overflow` — three operations of ten blocks each.
-/

import Mathlib.Algebra.BigOperators.Group.Finset.Basic
import Mathlib.Algebra.Order.BigOperators.Group.Finset
import RaidSystem.Reach

set_option autoImplicit false

namespace RaidSystem.Log

open Prog Function

/-- `LOGSIZE`. -/
def logsize : ℕ := 30

/-- `MAXOPBLOCKS`. -/
def maxopblocks : ℕ := 10

/-! ### The header -/

/-- `struct logheader`: the number of blocks, and their home addresses. -/
structure Logheader where
  n : ℕ
  block : ℕ → ℕ

namespace Logheader

variable {lh : Logheader} {b i k : ℕ}

/-- The loop of `log_write`: the first of the `k` places from `i` on that holds `b`, or the place
after them. -/
def search (lh : Logheader) (b : ℕ) : ℕ → ℕ → ℕ
  | i, 0 => i
  | i, k + 1 => if lh.block i = b then i else lh.search b (i + 1) k

/-- What `log_write` does to the header. -/
def record (lh : Logheader) (b : ℕ) : Logheader where
  n := if lh.search b 0 lh.n = lh.n then lh.n + 1 else lh.n
  block := update lh.block (lh.search b 0 lh.n) b

/-- The recorded blocks, in order. -/
def blocks (lh : Logheader) : List ℕ := (List.range lh.n).map lh.block

@[simp] theorem length_blocks : lh.blocks.length = lh.n := by simp [blocks]

theorem mem_blocks : b ∈ lh.blocks ↔ ∃ j < lh.n, lh.block j = b := by simp [blocks]

/-- The search finds the block if it is there. -/
theorem search_found {j : ℕ} (hij : i ≤ j) (hj : j < i + k) (hb : lh.block j = b) :
    lh.search b i k < i + k ∧ lh.block (lh.search b i k) = b := by
  induction k generalizing i with
  | zero => omega
  | succ k ih =>
    rw [search]
    split_ifs with h
    · exact ⟨by omega, h⟩
    · have hne : i ≠ j := fun h' => h (h' ▸ hb)
      have hrest := ih (i := i + 1) (by omega) (by omega)
      exact ⟨by omega, hrest.2⟩

theorem search_missing (h : ∀ j, i ≤ j → j < i + k → lh.block j ≠ b) : lh.search b i k = i + k := by
  induction k generalizing i with
  | zero => rfl
  | succ k ih =>
    rw [search, if_neg (h i (by omega) (by omega)), ih fun j h₁ h₂ => h j (by omega) (by omega)]
    omega

/-- **Recording a block** appends it, unless it is there already. -/
theorem blocks_record :
    (lh.record b).blocks = if b ∈ lh.blocks then lh.blocks else lh.blocks ++ [b] := by
  split_ifs with hmem
  · obtain ⟨j, hj, hb⟩ := mem_blocks.1 hmem
    obtain ⟨hlt, hfound⟩ := search_found (i := 0) (k := lh.n) (Nat.zero_le j) (by omega) hb
    have hn : (lh.record b).n = lh.n := if_neg (by omega)
    have hblock : (lh.record b).block = lh.block := by
      rw [record, update_eq_self_iff]
      exact hfound.symm
    rw [blocks, hn, hblock, blocks]
  · have hend : lh.search b 0 lh.n = lh.n := by
      rw [search_missing fun j _ hj hb => hmem (mem_blocks.2 ⟨j, by omega, hb⟩), Nat.zero_add]
    have hn : (lh.record b).n = lh.n + 1 := if_pos hend
    have hblock : (lh.record b).block = update lh.block lh.n b := by rw [record, hend]
    rw [blocks, hn, hblock, List.range_succ, List.map_append, List.map_singleton,
      update_self, blocks]
    congr 1
    refine List.map_congr_left fun j hj => ?_
    exact update_of_ne (List.mem_range.1 hj).ne _ _

theorem record_n : (lh.record b).n = if b ∈ lh.blocks then lh.n else lh.n + 1 := by
  rw [← length_blocks, blocks_record]
  split_ifs <;> simp

theorem mem_blocks_record {c : ℕ} : c ∈ (lh.record b).blocks ↔ c = b ∨ c ∈ lh.blocks := by
  rw [blocks_record]
  split_ifs with h
  · constructor
    · exact .inr
    · rintro (rfl | hc)
      · exact h
      · exact hc
  · rw [List.mem_append, List.mem_singleton, or_comm]

end Logheader

/-! ### Operations -/

/-- Where a process is: outside of an operation, in one, in `end_op` before `commit()`, or after
it. -/
inductive Local
  | outside
  | inside
  | committing
  | committed
deriving DecidableEq

/-- `struct log`, without what the counters do not depend on, and the processes. -/
structure State where
  outstanding : ℕ
  committing : Bool
  lh : Logheader
  procs : ℕ → Local

/-- The panics of the log; and steps that do not happen: a process that would sleep in `begin_op`,
and a process that is not where its step begins. -/
inductive Fault
  | tooBigATransaction
  | outsideOfTrans
  | logCommitting
  | sleeps
  | elsewhere
deriving DecidableEq

abbrev Kernel := Prog State Unit Fault

def State.move (s : State) (p : ℕ) (l : Local) : State :=
  { s with procs := update s.procs p l }

/-- `begin_op`: one round of its loop, which sleeps or lets the operation in. -/
def beginOp (p : ℕ) : Kernel Unit := do
  let s ← get
  if s.committing then fail .sleeps
  else if s.lh.n + (s.outstanding + 1) * maxopblocks > logsize then fail .sleeps
  else modify fun s => State.move { s with outstanding := s.outstanding + 1 } p .inside

/-- `log_write`, on a log of `size` blocks. -/
def logWrite (size b : ℕ) : Kernel Unit := do
  let s ← get
  if s.lh.n ≥ logsize ∨ s.lh.n ≥ size - 1 then fail .tooBigATransaction
  else if s.outstanding < 1 then fail .outsideOfTrans
  else modify fun s => { s with lh := s.lh.record b }

/-- `end_op` up to the release of the lock. -/
def endOp (p : ℕ) : Kernel Unit := do
  let s ← get
  if s.committing then fail .logCommitting
  else if s.outstanding - 1 = 0 then
    modify fun s => State.move { s with outstanding := s.outstanding - 1, committing := true } p
      .committing
  else modify fun s => State.move { s with outstanding := s.outstanding - 1 } p .outside

/-- `commit()`, of which the counters see only that it empties the log. -/
def commit (p : ℕ) : Kernel Unit := do
  modify fun s => State.move { s with lh := { s.lh with n := 0 } } p .committed

/-- The end of `end_op`. -/
def finishOp (p : ℕ) : Kernel Unit := do
  modify fun s => State.move { s with committing := false } p .outside

inductive Action
  | beginOp (p : ℕ)
  | logWrite (p b : ℕ)
  | endOp (p : ℕ)
  | commit (p : ℕ)
  | finishOp (p : ℕ)

/-- The process of a step, and where it has to be. -/
def Action.origin : Action → ℕ × Local
  | .beginOp p => (p, .outside)
  | .logWrite p _ => (p, .inside)
  | .endOp p => (p, .inside)
  | .commit p => (p, .committing)
  | .finishOp p => (p, .committed)

def perform (size : ℕ) : Action → Kernel Unit
  | .beginOp p => beginOp p
  | .logWrite _ b => logWrite size b
  | .endOp p => endOp p
  | .commit p => commit p
  | .finishOp p => finishOp p

/-- One step of a process. -/
def step (size : ℕ) (a : Action) : Kernel Unit := do
  let s ← get
  if s.procs a.origin.1 = a.origin.2 then perform size a else fail .elsewhere

/-- The log after a boot. -/
def start : State := ⟨0, false, ⟨0, fun _ => 0⟩, fun _ => .outside⟩

/-! ### What runs should do -/

/-- The blocks that process `p` has recorded in its operation, from the history of a run. -/
def opBlocks (p : ℕ) : List Action → Finset ℕ
  | [] => ∅
  | .beginOp q :: h => if q = p then ∅ else opBlocks p h
  | .logWrite q b :: h => if q = p then insert b (opBlocks p h) else opBlocks p h
  | _ :: h => opBlocks p h

/-- Operations record at most `k` different blocks. -/
def Within (k : ℕ) (h : List Action) (_ : State) : Action → Prop
  | .logWrite p b => (insert b (opBlocks p h)).card ≤ k
  | _ => True

/-- Operations record at most `k` different blocks, and an operation is let in only when the
recorded blocks and `k` blocks for each operation in progress leave two places. -/
def Roomy (k : ℕ) (h : List Action) (s : State) : Action → Prop
  | .beginOp _ => s.lh.n + (s.outstanding + 1) * k + 2 ≤ logsize
  | a => Within k h s a

/-- On the log that `mkfs` lays out, no allowed step of a run of allowed steps panics with "too big
a transaction". -/
def NeverTooBig (ok : List Action → State → Action → Prop) : Prop :=
  ∀ h s, Reach (step logsize) ok start h s → ∀ p b, ok h s (.logWrite p b) →
    ¬ Fails (step logsize (.logWrite p b)) s .tooBigATransaction

/-! ### The invariant -/

section Runs

variable {k p : ℕ} {h : List Action} {s s' : State} {u : Unit} {a : Action}

/-- The processes of `A` are the ones in an operation.  What they may still record fits into the log
with two places to spare; and the log is empty when no operation is in progress and none is being
committed. -/
structure Inv (k : ℕ) (h : List Action) (s : State) (A : Finset ℕ) : Prop where
  inside : ∀ p, s.procs p = .inside ↔ p ∈ A
  outstanding : s.outstanding = A.card
  recorded : ∀ p ∈ A, ∀ b ∈ opBlocks p h, b ∈ s.lh.blocks
  within : ∀ p ∈ A, (opBlocks p h).card ≤ k
  room : A.Nonempty → s.lh.n + ∑ p ∈ A, (k - (opBlocks p h).card) + 2 ≤ logsize
  idle : s.committing = true → A = ∅
  empty : s.committing = false → A = ∅ → s.lh.n = 0
  commit : ∀ p, s.procs p = .committing ∨ s.procs p = .committed →
    s.committing = true ∧ ∀ q, s.procs q = .committing ∨ s.procs q = .committed → q = p
  committed : ∀ p, s.procs p = .committed → s.lh.n = 0

theorem inv_start : Inv k [] start ∅ := by
  constructor <;> simp [start]

/-- A step is made by a process that is where the step begins. -/
theorem returns_step {size : ℕ} (hr : Returns (step size a) s u s') :
    s.procs a.origin.1 = a.origin.2 ∧ Returns (perform size a) s () s' := by
  rw [step, get_returns.bind_iff] at hr
  rcases returns_ite.1 hr with ⟨hat, hr⟩ | ⟨-, hr⟩
  · exact ⟨hat, hr⟩
  · exact absurd hr not_returns_fail

theorem fails_step_logWrite {size b : ℕ} {e : Fault} (he : e ≠ .elsewhere) :
    Fails (step size (.logWrite p b)) s e ↔ s.procs p = .inside ∧ Fails (logWrite size b) s e := by
  rw [step, get_returns.fails_bind_iff]
  change Fails (if s.procs p = .inside then logWrite size b else fail .elsewhere) s e ↔ _
  split_ifs with hat
  · rw [and_iff_right hat]
  · rw [fails_fail]
    exact iff_of_false he fun h => hat h.1

theorem fails_logWrite_tooBig {size b : ℕ} : Fails (logWrite size b) s .tooBigATransaction ↔
    s.lh.n ≥ logsize ∨ s.lh.n ≥ size - 1 := by
  rw [logWrite, get_returns.fails_bind_iff]
  split_ifs with hbig hout
  · exact iff_of_true (fails_fail.2 rfl) hbig
  · exact iff_of_false (fun h => by cases fails_fail.1 h) hbig
  · exact iff_of_false not_fails_modify hbig

theorem move_self (s : State) (p : ℕ) (l : Local) : (s.move p l).procs p = l :=
  update_self ..

theorem move_of_ne {q : ℕ} (hq : q ≠ p) (s : State) (l : Local) :
    (s.move p l).procs q = s.procs q := update_of_ne hq ..

theorem returns_beginOp : Returns (beginOp p) s u s' ↔ s.committing = false ∧
    s.lh.n + (s.outstanding + 1) * maxopblocks ≤ logsize ∧
      s' = State.move { s with outstanding := s.outstanding + 1 } p .inside := by
  rw [beginOp, get_returns.bind_iff, returns_ite, returns_ite]
  simp

theorem returns_logWrite {size b : ℕ} : Returns (logWrite size b) s u s' ↔
    (s.lh.n < logsize ∧ s.lh.n < size - 1) ∧ 1 ≤ s.outstanding ∧
      s' = { s with lh := s.lh.record b } := by
  rw [logWrite, get_returns.bind_iff, returns_ite, returns_ite]
  simp only [ge_iff_le, not_returns_fail, and_false, returns_modify, false_or, not_or, not_le,
    not_lt]

/-- Where a process goes when its operation ends; `last` says that no other is in progress. -/
def afterEnd (last : Bool) : Local := if last then .committing else .outside

theorem returns_endOp : Returns (endOp p) s u s' ↔ s.committing = false ∧
    ∃ last : Bool, (last = true ↔ s.outstanding - 1 = 0) ∧
      s' = State.move { s with outstanding := s.outstanding - 1, committing := last } p
        (afterEnd last) := by
  rw [endOp, get_returns.bind_iff, returns_ite, returns_ite]
  cases hc : s.committing with
  | true => simp
  | false =>
    by_cases hlast : s.outstanding - 1 = 0
    · simp [hlast, afterEnd]
    · simp [hlast, afterEnd, hc]

theorem opBlocks_beginOp (p q : ℕ) (h : List Action) :
    opBlocks q (.beginOp p :: h) = if p = q then ∅ else opBlocks q h := rfl

namespace Inv

variable {A : Finset ℕ}

section

variable (hI : Inv k h s A)

include hI

/-- `begin_op` lets an operation in. -/
theorem beginOp (hp : s.procs p = .outside) (hc : s.committing = false)
    (hroom : s.lh.n + (s.outstanding + 1) * k + 2 ≤ logsize) :
    Inv k (.beginOp p :: h) (State.move { s with outstanding := s.outstanding + 1 } p .inside)
      (insert p A) := by
  have hnew : p ∉ A := by
    intro hmem
    have := (hI.inside p).2 hmem
    rw [hp] at this
    cases this
  have hsame : ∀ q ∈ A, opBlocks q (.beginOp p :: h) = opBlocks q h := by
    intro q hq
    rw [opBlocks_beginOp, if_neg]
    rintro rfl
    exact hnew hq
  have hself : opBlocks p (.beginOp p :: h) = ∅ := by rw [opBlocks_beginOp, if_pos rfl]
  constructor
  · intro q
    rcases eq_or_ne q p with rfl | hq
    · simp [move_self]
    · rw [move_of_ne hq, Finset.mem_insert, hI.inside q]
      simp [hq]
  · rw [Finset.card_insert_of_notMem hnew, ← hI.outstanding]
    rfl
  · intro q hq b hb
    rcases Finset.mem_insert.1 hq with rfl | hq
    · simp [hself] at hb
    · rw [hsame q hq] at hb
      exact hI.recorded q hq b hb
  · intro q hq
    rcases Finset.mem_insert.1 hq with rfl | hq
    · simp [hself]
    · rw [hsame q hq]
      exact hI.within q hq
  · intro _
    have hsum : ∑ q ∈ A, (k - (opBlocks q (.beginOp p :: h)).card) ≤ A.card * k :=
      Finset.sum_le_card_nsmul A _ k fun q _ => Nat.sub_le _ _
    rw [Finset.sum_insert hnew, hself, Finset.card_empty, Nat.sub_zero]
    rw [hI.outstanding, Nat.add_mul, Nat.one_mul] at hroom
    change s.lh.n + _ + 2 ≤ logsize
    omega
  · intro hcommitting
    cases hc.symm.trans hcommitting
  · intro _ hempty
    exact absurd hempty (Finset.insert_ne_empty p A)
  · intro q hq
    rcases eq_or_ne q p with rfl | hne
    · rw [move_self] at hq
      rcases hq with hq | hq <;> cases hq
    · rw [move_of_ne hne] at hq
      cases hc.symm.trans (hI.commit q hq).1
  · intro q hq
    rcases eq_or_ne q p with rfl | hne
    · rw [move_self] at hq
      cases hq
    · rw [move_of_ne hne] at hq
      exact hI.committed q hq

/-- `log_write` records a block. -/
theorem logWrite (hp : p ∈ A) {b : ℕ} (hk : (insert b (opBlocks p h)).card ≤ k) :
    Inv k (.logWrite p b :: h) { s with lh := s.lh.record b } A := by
  have hsame : ∀ q ≠ p, opBlocks q (.logWrite p b :: h) = opBlocks q h := fun q hq =>
    if_neg (Ne.symm hq)
  have hself : opBlocks p (.logWrite p b :: h) = insert b (opBlocks p h) := if_pos rfl
  refine ⟨hI.inside, hI.outstanding, ?_, ?_, ?_, hI.idle, ?_, hI.commit, ?_⟩
  · intro q hq c hc
    refine Logheader.mem_blocks_record.2 ?_
    rcases eq_or_ne q p with rfl | hne
    · rw [hself] at hc
      rcases Finset.mem_insert.1 hc with rfl | hc
      · exact .inl rfl
      · exact .inr (hI.recorded q hq c hc)
    · rw [hsame q hne] at hc
      exact .inr (hI.recorded q hq c hc)
  · intro q hq
    rcases eq_or_ne q p with rfl | hne
    · rwa [hself]
    · rw [hsame q hne]
      exact hI.within q hq
  · intro hA
    -- the operation gives up a place for the block, unless the block has one
    have hroom := hI.room hA
    have hrest : ∑ q ∈ A.erase p, (k - (opBlocks q (.logWrite p b :: h)).card) =
        ∑ q ∈ A.erase p, (k - (opBlocks q h).card) :=
      Finset.sum_congr rfl fun q hq => by rw [hsame q (Finset.ne_of_mem_erase hq)]
    rw [← Finset.add_sum_erase A _ hp] at hroom ⊢
    rw [hrest, hself]
    change (s.lh.record b).n + _ + 2 ≤ logsize
    by_cases hb : b ∈ opBlocks p h
    · rw [Logheader.record_n, if_pos (hI.recorded p hp b hb), Finset.insert_eq_of_mem hb]
      exact hroom
    · have hle : (s.lh.record b).n ≤ s.lh.n + 1 := by
        rw [Logheader.record_n]
        split_ifs <;> omega
      rw [Finset.card_insert_of_notMem hb] at hk ⊢
      omega
  · intro _ hA
    rw [hA] at hp
    exact absurd hp (Finset.notMem_empty p)
  · intro q hq
    have := hI.idle (hI.commit q (.inr hq)).1
    rw [this] at hp
    exact absurd hp (Finset.notMem_empty p)

/-- `end_op` takes an operation out; the last one begins to commit. -/
theorem endOp (hp : p ∈ A) (hr : Returns (Log.endOp p) s u s') :
    Inv k (.endOp p :: h) s' (A.erase p) := by
  obtain ⟨hc, last, hlast, rfl⟩ := returns_endOp.1 hr
  have hcard := Finset.card_erase_of_mem hp
  have hnone : ∀ q, ¬ (s.procs q = .committing ∨ s.procs q = .committed) := fun q hq => by
    cases hc.symm.trans (hI.commit q hq).1
  have hzero : A.erase p = ∅ ↔ last = true := by
    rw [← Finset.card_eq_zero, hcard, hlast, hI.outstanding]
  constructor
  · intro q
    rcases eq_or_ne q p with rfl | hq
    · cases last <;> simp [move_self, afterEnd]
    · rw [move_of_ne hq, Finset.mem_erase, hI.inside q]
      simp [hq]
  · rw [hcard, ← hI.outstanding]
    rfl
  · intro q hq
    exact hI.recorded q (Finset.mem_of_mem_erase hq)
  · intro q hq
    exact hI.within q (Finset.mem_of_mem_erase hq)
  · intro _
    have hroom := hI.room ⟨p, hp⟩
    rw [← Finset.add_sum_erase A _ hp] at hroom
    change s.lh.n + ∑ q ∈ A.erase p, (k - (opBlocks q h).card) + 2 ≤ logsize
    omega
  · exact hzero.2
  · intro hcommitting hempty
    cases hcommitting.symm.trans (hzero.1 hempty)
  · intro q hq
    rcases eq_or_ne q p with rfl | hne
    · cases last with
      | true =>
        refine ⟨rfl, fun r hr => ?_⟩
        by_contra hne
        rw [move_of_ne hne] at hr
        exact hnone r hr
      | false =>
        rw [move_self] at hq
        rcases hq with hq | hq <;> cases hq
    · rw [move_of_ne hne] at hq
      exact absurd hq (hnone q)
  · intro q hq
    rcases eq_or_ne q p with rfl | hne
    · rw [move_self] at hq
      cases last <;> cases hq
    · rw [move_of_ne hne] at hq
      exact absurd (.inr hq) (hnone q)

/-- While a process commits, no operation is in progress. -/
theorem empty_of_commit (hp : s.procs p = .committing ∨ s.procs p = .committed) : A = ∅ :=
  hI.idle (hI.commit p hp).1

/-- `commit()` empties the log. -/
theorem commits (hp : s.procs p = .committing) :
    Inv k (.commit p :: h) (State.move { s with lh := { s.lh with n := 0 } } p .committed) A := by
  obtain rfl := hI.empty_of_commit (.inl hp)
  obtain ⟨hc, huniq⟩ := hI.commit p (.inl hp)
  refine ⟨?_, hI.outstanding, ?_, ?_, ?_, fun _ => rfl, fun _ _ => rfl, ?_, fun _ _ => rfl⟩
  · intro q
    rcases eq_or_ne q p with rfl | hq
    · simp [move_self]
    · rw [move_of_ne hq]
      exact hI.inside q
  · intro q hq
    cases hq
  · intro q hq
    cases hq
  · rintro ⟨q, hq⟩
    cases hq
  · -- the process stays the only one that commits
    have honly : ∀ q, (State.move { s with lh := { s.lh with n := 0 } } p .committed).procs q =
        .committing ∨ (State.move { s with lh := { s.lh with n := 0 } } p .committed).procs q =
        .committed → q = p := by
      intro q hq
      by_contra hne
      rw [move_of_ne hne] at hq
      exact hne (huniq q hq)
    intro q hq
    rw [honly q hq]
    exact ⟨hc, honly⟩

/-- The end of `end_op`. -/
theorem finishes (hp : s.procs p = .committed) :
    Inv k (.finishOp p :: h) (State.move { s with committing := false } p .outside) A := by
  obtain rfl := hI.empty_of_commit (.inr hp)
  obtain ⟨-, huniq⟩ := hI.commit p (.inr hp)
  have hnone : ∀ q, ¬ ((State.move { s with committing := false } p .outside).procs q =
      .committing ∨ (State.move { s with committing := false } p .outside).procs q =
      .committed) := by
    intro q hq
    rcases eq_or_ne q p with rfl | hne
    · rw [move_self] at hq
      rcases hq with hq | hq <;> cases hq
    · rw [move_of_ne hne] at hq
      exact hne (huniq q hq)
  refine ⟨?_, hI.outstanding, ?_, ?_, ?_, fun _ => rfl, fun _ _ => hI.committed p hp, ?_, ?_⟩
  · intro q
    rcases eq_or_ne q p with rfl | hq
    · simp [move_self]
    · rw [move_of_ne hq]
      exact hI.inside q
  · intro q hq
    cases hq
  · intro q hq
    cases hq
  · rintro ⟨q, hq⟩
    cases hq
  · intro q hq
    exact absurd hq (hnone q)
  · intro q hq
    exact absurd (.inr hq) (hnone q)

/-- **Every step keeps the invariant.** -/
theorem step (hok : Roomy k h s a) (hr : Returns (Log.step logsize a) s u s') :
    ∃ A', Inv k (a :: h) s' A' := by
  obtain ⟨hat, hr⟩ := returns_step hr
  cases a with
  | beginOp p =>
    obtain ⟨hc, -, rfl⟩ := returns_beginOp.1 hr
    exact ⟨insert p A, hI.beginOp hat hc hok⟩
  | logWrite p b =>
    obtain ⟨-, -, rfl⟩ := returns_logWrite.1 hr
    exact ⟨A, hI.logWrite ((hI.inside p).1 hat) hok⟩
  | endOp p => exact ⟨A.erase p, hI.endOp ((hI.inside p).1 hat) hr⟩
  | commit p =>
    obtain rfl := (returns_modify (u := ())).1 hr
    exact ⟨A, hI.commits hat⟩
  | finishOp p =>
    obtain rfl := (returns_modify (u := ())).1 hr
    exact ⟨A, hI.finishes hat⟩

/-- A process in an operation finds room in the log. -/
theorem not_tooBig {b : ℕ} :
    ¬ Fails (Log.step logsize (.logWrite p b)) s .tooBigATransaction := by
  intro hfail
  obtain ⟨hat, hfail⟩ := (fails_step_logWrite (by decide)).1 hfail
  have hbig := fails_logWrite_tooBig.1 hfail
  have hroom := hI.room ⟨p, (hI.inside p).1 hat⟩
  rw [logsize] at hbig hroom
  omega

end

end Inv

theorem exists_inv (hr : Reach (step logsize) (Roomy k) start h s) : ∃ A, Inv k h s A := by
  refine hr.inv (fun h s => ∃ A, Inv k h s A) ⟨∅, inv_start⟩ ?_
  rintro h s a u s' ⟨A, hI⟩ hok hret
  exact hI.step hok hret

/-- An operation of at most nine blocks that `begin_op` lets in leaves two places. -/
theorem roomy_of_within (hk : k < maxopblocks) (hr : Reach (step logsize) (Within k) start h s) :
    Reach (step logsize) (Roomy k) start h s := by
  induction hr with
  | start => exact .start
  | @next h s s' a u hr hok hret ih =>
    refine ih.next ?_ hret
    cases a with
    | beginOp p =>
      obtain ⟨A, hI⟩ := exists_inv ih
      obtain ⟨hc, hadmit, -⟩ := returns_beginOp.1 (returns_step hret).2
      -- with no operation in progress the log is empty; with some, each leaves a place
      rcases A.eq_empty_or_nonempty with rfl | hA
      · have hout : s.outstanding = 0 := hI.outstanding
        have hn := hI.empty hc rfl
        rw [Roomy, hout, hn]
        simp only [maxopblocks, logsize] at *
        omega
      · have hout : 1 ≤ s.outstanding := by
          rw [hI.outstanding]
          exact Finset.card_pos.2 hA
        have hle : (s.outstanding + 1) * k ≤ (s.outstanding + 1) * 9 :=
          Nat.mul_le_mul_left _ (Nat.le_of_lt_succ hk)
        simp only [Roomy, maxopblocks, logsize] at *
        omega
    | _ => exact hok

theorem neverTooBig_roomy (k : ℕ) : NeverTooBig (Roomy k) := by
  intro h s hr p b _
  obtain ⟨A, hI⟩ := exists_inv hr
  exact hI.not_tooBig

/-- **Admitted operations do not overflow the log** if they record at most nine blocks each; and if
they record more, as long as each is let in only when that leaves two places. -/
theorem log_never_overflows {b : ℕ}
    (hr : k < maxopblocks ∧ Reach (step logsize) (Within k) start h s ∨
      Reach (step logsize) (Roomy k) start h s)
    (hok : Within k h s (.logWrite p b)) :
    ¬ Fails (step logsize (.logWrite p b)) s .tooBigATransaction := by
  rcases hr with ⟨hk, hr⟩ | hr
  · exact neverTooBig_roomy k h s (roomy_of_within hk hr) p b hok
  · exact neverTooBig_roomy k h s hr p b hok

end Runs

/-! ### Three operations -/

instance (k : ℕ) (h : List Action) (s : State) : (a : Action) → Decidable (Within k h s a)
  | .logWrite _ _ => inferInstanceAs (Decidable (_ ≤ _))
  | .beginOp _ | .endOp _ | .commit _ | .finishOp _ => inferInstanceAs (Decidable True)

/-- Three processes begin operations, and record nine blocks each, the last one only eight so
far. -/
def threeShortOperations : List Action :=
  [.beginOp 0, .beginOp 1, .beginOp 2] ++ (List.range 9).map (.logWrite 0) ++
    (List.range 9).map (fun b => .logWrite 1 (9 + b)) ++
    (List.range 8).map (fun b => .logWrite 2 (18 + b))

/-- The ninth block of the last one fits. -/
theorem log_never_overflows_nine : ∃ s,
    Reach (step logsize) (Within 9) start threeShortOperations.reverse s ∧
      s.lh.n = 26 ∧ ¬ Fails (step logsize (.logWrite 2 26)) s .tooBigATransaction := by
  have hr : Reach (step logsize) (Within 9) start threeShortOperations.reverse _ :=
    .of_allows_start (by decide +kernel)
  have hok : Within 9 threeShortOperations.reverse
      (Reach.after (step logsize) threeShortOperations start) (.logWrite 2 26) := by
    decide +kernel
  exact ⟨_, hr, by decide +kernel, log_never_overflows (.inl ⟨by decide, hr⟩) hok⟩

/-- Three processes begin operations, and record ten blocks each, the last one only nine so far. -/
def threeOperations : List Action :=
  [.beginOp 0, .beginOp 1, .beginOp 2] ++ (List.range 10).map (.logWrite 0) ++
    (List.range 10).map (fun b => .logWrite 1 (10 + b)) ++
    (List.range 9).map (fun b => .logWrite 2 (20 + b))

/-- **Three operations of ten blocks overflow the log.** -/
theorem three_operations_overflow : ¬ NeverTooBig (Within maxopblocks) := by
  intro hnever
  have hten : (insert 29 (opBlocks 2 threeOperations.reverse)).card ≤ maxopblocks := by
    decide +kernel
  refine hnever _ _ (.of_allows_start (by decide +kernel)) 2 29 hten ?_
  refine (fails_step_logWrite (by decide)).2 ⟨by decide +kernel, fails_logWrite_tooBig.2 (.inr ?_)⟩
  decide +kernel

end RaidSystem.Log
