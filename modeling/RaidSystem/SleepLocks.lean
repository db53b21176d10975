/-
**Sleep locks: `kernel/sleeplock.c`, with `sleep` and `wakeup` of `kernel/proc.c`.**

A process that finds a sleep lock taken gives up the CPU until the lock is released.  `sleep` takes
`p->lock` before it lets go of `lk->lk`, and `wakeup` looks at a process under its `p->lock`.  A
step ends where a process may have to wait for a spin lock, or may be overtaken; the steps of all
processes and of the schedulers are interleaved in any order.

* `State`, `next`, `step` — the locks, the processes, and their steps;
* `Inv` — who holds which lock, and that a process which sleeps or is about to is still to be woken;
* `sleep_lock_sound` — **at most one process holds the lock, no process sleeps while it is free, and
  processes that wait for it are not stuck**, in every state that is reached.
-/

import Mathlib.Logic.Function.Basic
import Mathlib.Tactic.SplitIfs
import RaidSystem.Reach

set_option autoImplicit false

namespace RaidSystem.SleepLocks

open Prog Function

/-- Where a process is: outside of the functions, without the lock or with it; in `acquiresleep`, at
`acquire(&lk->lk)` or at the test of `lk->locked`; in `sleep`, at `acquire(&p->lock)`, at
`release(lk)`, before it sets its state, away in `sched`, or back from it; in `releasesleep`, at
`acquire(&lk->lk)`, or in `wakeup` at entry `i` of the process table. -/
inductive Pc
  | outside
  | holding
  | acquiring
  | testing
  | locking
  | unlocking
  | dozing
  | away
  | back
  | releasing
  | waking (i : ℕ)
  deriving DecidableEq

namespace Pc

/-- The process holds `lk->lk`. -/
@[grind] def spins : Pc → Bool
  | testing | locking | unlocking | waking _ => true
  | _ => false

/-- The process holds the sleep lock. -/
@[grind] def owns : Pc → Bool
  | holding | releasing => true
  | _ => false

/-- The process holds its `p->lock`. -/
@[grind] def locks : Pc → Bool
  | unlocking | dozing | back => true
  | _ => false

/-- The process is about to sleep. -/
@[grind] def drowsy : Pc → Bool
  | locking | unlocking | dozing => true
  | _ => false

end Pc

/-- Who holds `lk->lk`; who holds the sleep lock (`lk->pid`, if `lk->locked`); whether `p->lock` is
held by `p` or by the scheduler that it switched to; whether `p->state` is `SLEEPING` and `p->chan`
the lock; and where the processes are. -/
structure State where
  spin : Option ℕ
  pid : Option ℕ
  plock : ℕ → Bool
  asleep : ℕ → Bool
  pc : ℕ → Pc

/-- A process calls a function or goes on in it; the scheduler lets go of a process that it came
from, or runs one that is runnable; and `kill` makes one runnable. -/
inductive Action
  | acquiresleep (p : ℕ)
  | releasesleep (p : ℕ)
  | run (p : ℕ)
  | sched (p : ℕ)
  | schedule (p : ℕ)
  | kill (p : ℕ)

namespace State

variable (s : State) (p : ℕ)

def goto (x : Pc) : State := { s with pc := update s.pc p x }

/-- Process `p` goes on, if it does not wait for a spin lock. -/
def run (nproc : ℕ) : Option State :=
  match s.pc p with
  | .acquiring => if s.spin = none then some ({ s with spin := some p }.goto p .testing) else none
  | .testing =>
    if s.pid = none then some ({ s with pid := some p, spin := none }.goto p .holding)
    else some (s.goto p .locking)
  | .locking =>
    if s.plock p then none
    else some ({ s with plock := update s.plock p true }.goto p .unlocking)
  | .unlocking => some ({ s with spin := none }.goto p .dozing)
  | .dozing => some ({ s with asleep := update s.asleep p true }.goto p .away)
  | .back => some ({ s with plock := update s.plock p false }.goto p .acquiring)
  | .releasing =>
    if s.spin = none then some ({ s with pid := none, spin := some p }.goto p (.waking 0)) else none
  | .waking i =>
    if nproc ≤ i then some ({ s with spin := none }.goto p .outside)
    else if i = p then some (s.goto p (.waking (i + 1)))
    else if s.plock i then none
    else some ({ s with asleep := update s.asleep i false }.goto p (.waking (i + 1)))
  | _ => none

/-- The steps, for `nproc` processes. -/
def next (nproc : ℕ) : Action → Option State
  | .acquiresleep p => if p < nproc ∧ s.pc p = .outside then some (s.goto p .acquiring) else none
  | .releasesleep p => if s.pc p = .holding then some (s.goto p .releasing) else none
  | .run p => s.run p nproc
  | .sched p =>
    if s.pc p = .away ∧ s.plock p then some { s with plock := update s.plock p false } else none
  | .schedule p =>
    if s.pc p = .away ∧ s.plock p = false ∧ s.asleep p = false then
      some ({ s with plock := update s.plock p true }.goto p .back)
    else none
  | .kill p => if s.plock p then none else some { s with asleep := update s.asleep p false }

end State

/-- The step cannot be taken. -/
inductive Fault
  | waits

def step (nproc : ℕ) (a : Action) : Prog State Unit Fault Unit := do
  let s ← get
  match s.next nproc a with
  | some s' => modify fun _ => s'
  | none => fail .waits

/-- A `wakeup` has not come to process `p` yet. -/
def Ahead (pc : ℕ → Pc) (p : ℕ) : Prop := ∃ q i, pc q = .waking i ∧ i ≤ p

/-- Process `p` sleeps, or is about to. -/
def Drowsy (pc : ℕ → Pc) (asleep : ℕ → Bool) (p : ℕ) : Prop :=
  (pc p).drowsy = true ∨ pc p = .away ∧ asleep p = true

/-- Who holds which lock, and that a process which sleeps, or is about to, is still to be woken: the
sleep lock is held, or a `wakeup` has not come to the process yet. -/
structure Inv (nproc : ℕ) (s : State) : Prop where
  spin : ∀ p, s.spin = some p ↔ (s.pc p).spins = true
  pid : ∀ p, s.pid = some p ↔ (s.pc p).owns = true
  plock : ∀ p, s.plock p = true → (s.pc p).locks = true ∨ s.pc p = .away
  locked : ∀ p, (s.pc p).locks = true → s.plock p = true
  bound : ∀ p, s.pc p ≠ .outside → p < nproc
  woken : ∀ p, Drowsy s.pc s.asleep p → s.pid ≠ none ∨ Ahead s.pc p

section Steps

variable {nproc p : ℕ} {s s' : State} {a : Action} {u : Unit} {w x : Pc}

theorem returns_step : Returns (step nproc a) s u s' ↔ s.next nproc a = some s' := by
  rw [step, get_returns.bind_iff]
  cases s.next nproc a with
  | none => simp
  | some s₁ => simp [eq_comm]

theorem of_update_false {f : ℕ → Bool} {i q : ℕ} (h : update f i false q = true) : f q = true := by
  rw [update_apply] at h
  split_ifs at h
  exact h

/-- Process `p` moves from `w` to `x`, and the holder of a lock changes from `o` to `o'`. -/
inductive Passes (f : Pc → Bool) (p : ℕ) (w x : Pc) : Option ℕ → Option ℕ → Prop
  | same {o : Option ℕ} (hx : f x = f w) : Passes f p w x o o
  | takes {o : Option ℕ} (ho : o = none) (hx : f x = true) : Passes f p w x o (some p)
  | leaves {o : Option ℕ} (hw : f w = true) (hx : f x = false) : Passes f p w x o none

theorem Passes.update {o o' : Option ℕ} {f : Pc → Bool} {pc : ℕ → Pc}
    (h : ∀ q, o = some q ↔ f (pc q) = true)
    (hpc : pc p = w) (hmove : Passes f p w x o o') (q : ℕ) :
    o' = some q ↔ f (update pc p x q) = true := by
  subst hpc
  cases hmove with
  | same hx =>
    rw [h q, update_apply]
    split_ifs with hq
    · rw [hx, hq]
    · rfl
  | takes ho hx =>
    rw [update_apply, Option.some_inj, eq_comm]
    split_ifs with hq
    · exact iff_of_true hq hx
    · refine iff_of_false hq fun hf => ?_
      rw [← h, ho] at hf
      cases hf
  | leaves hw hx =>
    refine iff_of_false nofun ?_
    rw [update_apply]
    split_ifs with hq
    · rw [hx]
      exact Bool.false_ne_true
    · -- nobody else had the lock
      intro hf
      rw [← h, (h p).2 hw] at hf
      exact hq (Option.some.inj hf).symm

/-- Process `p` moves to `x`; its `p->lock` is held there, or by the scheduler, or by nobody. -/
structure Follows (s : State) (p : ℕ) (x : Pc) (plock : ℕ → Bool) : Prop where
  others : ∀ q ≠ p, plock q = s.plock q
  held : plock p = true → x.locks = true ∨ x = .away
  locked : x.locks = true → plock p = true

theorem Follows.same (h : Inv nproc s) (hpc : s.pc p = w) (hw : w ≠ .away)
    (hx : x.locks = w.locks) :
    Follows s p x s.plock := by
  subst hpc
  refine ⟨fun _ _ => rfl, fun hl => .inl ?_, fun hl => h.locked p (hx ▸ hl)⟩
  rw [hx]
  exact (h.plock p hl).resolve_right hw

theorem Follows.takes (hx : x.locks = true) : Follows s p x (update s.plock p true) :=
  ⟨fun _ hq => update_of_ne hq .., fun _ => .inl hx, fun _ => update_self ..⟩

theorem Follows.leaves (hx : x.locks = false) : Follows s p x (update s.plock p false) := by
  refine ⟨fun _ hq => update_of_ne hq .., fun hl => ?_, fun hl => ?_⟩
  · rw [update_self] at hl
    cases hl
  · rw [hx] at hl
    cases hl

/-- Process `p` moves to `x`; if it is in `wakeup` before `q`, it stays so. -/
theorem Ahead.update {pc : ℕ → Pc} {q : ℕ} (h : Ahead pc q)
    (hp : ∀ i, pc p = .waking i → i ≤ q → ∃ j ≤ q, x = .waking j) : Ahead (update pc p x) q := by
  obtain ⟨r, i, hr, hi⟩ := h
  rcases eq_or_ne r p with rfl | hne
  · obtain ⟨j, hj, rfl⟩ := hp i hr hi
    exact ⟨r, j, update_self .., hj⟩
  · exact ⟨r, i, by rwa [update_of_ne hne], hi⟩

section

variable (h : Inv nproc s)

include h

/-- A process that moves does not become drowsy, and does not pass one that is. -/
theorem Inv.woken_move {asleep : ℕ → Bool}
    (hx : x.drowsy = true ∨ x = .away → (s.pc p).drowsy = true)
    (hasleep : ∀ q ≠ p, asleep q = true → s.asleep q = true)
    (hpass : ∀ i q, s.pc p = .waking i → q ≠ p → Drowsy s.pc asleep q → i ≤ q →
      ∃ j ≤ q, x = .waking j)
    (q : ℕ) (hq : Drowsy (update s.pc p x) asleep q) :
    s.pid ≠ none ∨ Ahead (update s.pc p x) q := by
  rcases eq_or_ne q p with rfl | hne
  · rw [Drowsy, update_self] at hq
    have hd := hx (hq.imp_right And.left)
    refine (h.woken q (.inl hd)).imp_right fun ha => ha.update fun i hi => ?_
    rw [hi] at hd
    cases hd
  · rw [Drowsy, update_of_ne hne] at hq
    have hold := hq.imp_right (And.imp_right (hasleep q hne))
    exact (h.woken q hold).imp_right fun ha => ha.update fun i hi => hpass i q hi hne hq

/-- The same for a process outside of `wakeup`. -/
theorem Inv.woken_keep {asleep : ℕ → Bool} (hpc : s.pc p = w) (hw : ∀ i, w ≠ .waking i)
    (hx : x.drowsy = true ∨ x = .away → w.drowsy = true) (hasleep : ∀ q ≠ p, asleep q = s.asleep q)
    (q : ℕ) (hq : Drowsy (update s.pc p x) asleep q) :
    s.pid ≠ none ∨ Ahead (update s.pc p x) q := by
  subst hpc
  exact h.woken_move hx (fun q hne hs => (hasleep q hne).symm.trans hs)
    (fun i _ hi => absurd hi (hw i)) q hq

/-- **A process moves**, and its locks move along. -/
theorem Inv.move {spin pid : Option ℕ} {plock asleep : ℕ → Bool} (hp : p < nproc) (hpc : s.pc p = w)
    (hspin : Passes Pc.spins p w x s.spin spin) (hpid : Passes Pc.owns p w x s.pid pid)
    (hplock : Follows s p x plock)
    (hwoken : ∀ q, Drowsy (update s.pc p x) asleep q → pid ≠ none ∨ Ahead (update s.pc p x) q) :
    Inv nproc ⟨spin, pid, plock, asleep, update s.pc p x⟩ where
  spin := hspin.update h.spin hpc
  pid := hpid.update h.pid hpc
  plock q hq := by
    dsimp only at hq ⊢
    rcases eq_or_ne q p with rfl | hne
    · rw [update_self]
      exact hplock.held hq
    · rw [update_of_ne hne]
      exact h.plock q ((hplock.others q hne).symm.trans hq)
  locked q hq := by
    dsimp only at hq ⊢
    rcases eq_or_ne q p with rfl | hne
    · rw [update_self] at hq
      exact hplock.locked hq
    · rw [update_of_ne hne] at hq
      exact (hplock.others q hne).trans (h.locked q hq)
  bound q hq := by
    rcases eq_or_ne q p with rfl | hne
    · exact hp
    · exact h.bound q (by rwa [← update_of_ne hne x s.pc])
  woken := hwoken

/-- **`wakeup` goes on** to the next entry, or is done. -/
theorem Inv.run_waking {i : ℕ} (hp : p < nproc) (hpc : s.pc p = .waking i)
    (hn : s.run p nproc = some s') : Inv nproc s' := by
  simp only [State.run, hpc] at hn
  split_ifs at hn with hlast hself hlock
  · -- whoever may sleep has an entry
    cases hn
    refine h.move hp hpc (.leaves rfl rfl) (.same rfl) (.same h hpc nofun rfl)
      (h.woken_move (by simp [Pc.drowsy]) (fun _ _ => id) fun j q hj _ hq hjq => ?_)
    obtain rfl := Pc.waking.inj (hpc.symm.trans hj)
    have hout : s.pc q ≠ .outside := fun hout => by simp [Drowsy, hout, Pc.drowsy] at hq
    have := h.bound q hout
    omega
  · cases hn
    refine h.move hp hpc (.same rfl) (.same rfl) (.same h hpc nofun rfl)
      (h.woken_move (by simp [Pc.drowsy]) (fun _ _ => id) fun j q hj hne _ hjq => ?_)
    obtain rfl := Pc.waking.inj (hpc.symm.trans hj)
    exact ⟨i + 1, by omega, rfl⟩
  · cases hn
    refine h.move hp hpc (.same rfl) (.same rfl) (.same h hpc nofun rfl)
      (h.woken_move (by simp [Pc.drowsy]) (fun _ _ => of_update_false) fun j q hj hne hq hjq => ?_)
    obtain rfl := Pc.waking.inj (hpc.symm.trans hj)
    refine ⟨i + 1, Nat.lt_of_le_of_ne hjq fun hiq => ?_, rfl⟩
    subst hiq
    -- entry `i` does not sleep any more; with its lock free, it is not on its way either
    have hawake : update s.asleep i false i ≠ true := by simp
    have hdrowsy := hq.resolve_right fun h => hawake h.2
    have hspin := (h.spin p).2 (by rw [hpc]; rfl)
    have hspins : (s.pc i).spins ≠ true := by
      rw [Ne, ← h.spin, hspin]
      exact fun heq => hself (Option.some.inj heq).symm
    have hlocks : (s.pc i).locks ≠ true := fun hl => hlock (h.locked i hl)
    cases hpi : s.pc i <;> simp_all [Pc.spins, Pc.locks, Pc.drowsy]

/-- **A process goes on.** -/
theorem Inv.run (hn : s.run p nproc = some s') : Inv nproc s' := by
  have hp : p < nproc := h.bound p fun hpc => by
    rw [State.run, hpc] at hn
    cases hn
  cases hpc : s.pc p with
  | waking i => exact h.run_waking hp hpc hn
  | acquiring =>
    simp only [State.run, hpc] at hn
    split_ifs at hn with hfree
    cases hn
    exact h.move hp hpc (.takes hfree rfl) (.same rfl) (.same h hpc nofun rfl)
      (h.woken_keep hpc nofun (by simp [Pc.drowsy]) fun _ _ => rfl)
  | testing =>
    -- who goes to sleep has seen that the lock is held
    simp only [State.run, hpc] at hn
    split_ifs at hn with hfree <;> cases hn
    · exact h.move hp hpc (.leaves rfl rfl) (.takes hfree rfl) (.same h hpc nofun rfl)
        fun _ _ => .inl (Option.some_ne_none p)
    · exact h.move hp hpc (.same rfl) (.same rfl) (.same h hpc nofun rfl) fun _ _ => .inl hfree
  | locking =>
    simp only [State.run, hpc] at hn
    split_ifs at hn
    cases hn
    exact h.move hp hpc (.same rfl) (.same rfl) (.takes rfl)
      (h.woken_keep hpc nofun (fun _ => rfl) fun _ _ => rfl)
  | unlocking =>
    simp only [State.run, hpc] at hn
    cases hn
    exact h.move hp hpc (.leaves rfl rfl) (.same rfl) (.same h hpc nofun rfl)
      (h.woken_keep hpc nofun (fun _ => rfl) fun _ _ => rfl)
  | dozing =>
    simp only [State.run, hpc] at hn
    cases hn
    -- the lock of the process goes to the scheduler
    exact h.move hp hpc (.same rfl) (.same rfl) ⟨fun _ _ => rfl, fun _ => .inr rfl, nofun⟩
      (h.woken_keep hpc nofun (fun _ => rfl) fun q hq => update_of_ne hq ..)
  | back =>
    simp only [State.run, hpc] at hn
    cases hn
    exact h.move hp hpc (.same rfl) (.same rfl) (.leaves rfl)
      (h.woken_keep hpc nofun (by simp [Pc.drowsy]) fun _ _ => rfl)
  | releasing =>
    -- the lock is free now, and the wakeup has all processes before it
    simp only [State.run, hpc] at hn
    split_ifs at hn with hfree
    cases hn
    exact h.move hp hpc (.takes hfree rfl) (.leaves rfl rfl) (.same h hpc nofun rfl)
      fun q _ => .inr ⟨p, 0, update_self .., Nat.zero_le q⟩
  | outside | holding | away =>
    rw [State.run, hpc] at hn
    cases hn

/-- **Every step keeps the invariant.** -/
theorem Inv.next (hn : s.next nproc a = some s') : Inv nproc s' := by
  cases a with
  | run p => exact h.run hn
  | acquiresleep p =>
    rw [State.next] at hn
    split_ifs at hn with hcond
    cases hn
    exact h.move hcond.1 hcond.2 (.same rfl) (.same rfl) (.same h hcond.2 nofun rfl)
      (h.woken_keep hcond.2 nofun (by simp [Pc.drowsy]) fun _ _ => rfl)
  | releasesleep p =>
    rw [State.next] at hn
    split_ifs at hn with hpc
    cases hn
    exact h.move (h.bound p (by rw [hpc]; nofun)) hpc (.same rfl) (.same rfl)
      (.same h hpc nofun rfl) (h.woken_keep hpc nofun (by simp [Pc.drowsy]) fun _ _ => rfl)
  | schedule p =>
    rw [State.next] at hn
    split_ifs at hn with hcond
    cases hn
    exact h.move (h.bound p (by rw [hcond.1]; nofun)) hcond.1 (.same rfl) (.same rfl) (.takes rfl)
      (h.woken_keep hcond.1 nofun (by simp [Pc.drowsy]) fun _ _ => rfl)
  | sched p =>
    rw [State.next] at hn
    split_ifs at hn with hcond
    cases hn
    -- the process is away, so that its lock need not be held
    refine { h with plock := fun q hq => h.plock q ?_, locked := fun q hq => ?_ }
    · exact of_update_false hq
    · have hne : q ≠ p := by
        rintro rfl
        rw [hcond.1] at hq
        cases hq
      exact (update_of_ne hne ..).trans (h.locked q hq)
  | kill p =>
    rw [State.next] at hn
    split_ifs at hn with hcond
    cases hn
    exact { h with woken := fun q hq => h.woken q (hq.imp_right (And.imp_right of_update_false)) }

end

/-- A process in a function of the lock, or a scheduler, can take a step. -/
def State.Live (nproc : ℕ) (s : State) : Prop :=
  ∃ q, s.run q nproc ≠ none ∨ s.next nproc (.sched q) ≠ none ∨ s.next nproc (.schedule q) ≠ none

/-- The lock of a process that does not hold `lk->lk` is about to be released. -/
theorem Inv.live_of_plock (h : Inv nproc s) (hp : s.plock p = true) (hspin : s.spin ≠ some p) :
    s.Live nproc := by
  have hlocks := h.plock p hp
  have hspins := h.spin p
  refine ⟨p, ?_⟩
  cases hpc : s.pc p <;> simp_all [State.run, State.next, Pc.spins, Pc.locks]

/-- **Nobody is stuck**: if a process uses the lock, and none has taken it and is outside of its
functions, a step can be taken. -/
theorem Inv.live (h : Inv nproc s) (hp : s.pc p ≠ .outside) (hfree : ∀ q, s.pc q ≠ .holding) :
    s.Live nproc := by
  cases hspin : s.spin with
  | some q =>
    have hq := (h.spin q).1 hspin
    by_cases hlock : ∃ i, i ≠ q ∧ s.plock i = true
    · obtain ⟨i, hne, hi⟩ := hlock
      exact h.live_of_plock hi (by rw [hspin]; exact fun heq => hne (Option.some.inj heq).symm)
    · have hplock := h.plock q
      refine ⟨q, .inl ?_⟩
      cases hpc : s.pc q <;> grind [State.run]
  | none =>
    have hno : ∀ q, (s.pc q).spins ≠ true := fun q hq => by
      rw [← h.spin, hspin] at hq
      cases hq
    by_cases hl : s.plock p = true
    · exact h.live_of_plock hl (by simp [hspin])
    by_cases ha : s.pc p = .away ∧ s.asleep p = true
    · -- whoever is to wake the process is in `releasesleep`
      rcases h.woken p (.inr ha) with hpid | ⟨q, i, hq, -⟩
      · obtain ⟨q, hq⟩ := Option.ne_none_iff_exists'.1 hpid
        have howns := (h.pid q).1 hq
        refine ⟨q, .inl ?_⟩
        cases hpc : s.pc q <;> simp_all [State.run, Pc.owns]
      · exact absurd rfl (hq ▸ hno q)
    · refine ⟨p, ?_⟩
      have hp' := hno p
      cases hpc : s.pc p <;> simp_all [State.run, State.next, Pc.spins]

/-- After `initsleeplock`, before anybody uses the lock. -/
def idle : State := ⟨none, none, fun _ => false, fun _ => false, fun _ => .outside⟩

/-- What the users of the lock rely on.  The second property says what `holdingsleep` returns. -/
structure Sound (nproc : ℕ) (s : State) : Prop where
  exclusive : ∀ p q, (s.pc p).owns = true → (s.pc q).owns = true → p = q
  holdingsleep : ∀ p, s.pid = some p ↔ (s.pc p).owns = true
  awake : s.spin = none → s.pid = none → ∀ p, ¬ Drowsy s.pc s.asleep p
  live : ∀ p, s.pc p ≠ .outside → (∀ q, s.pc q ≠ .holding) → s.Live nproc

/-- **Sleep locks are sound**, whatever the order of the steps. -/
theorem sleep_lock_sound {l : List Action} (hr : Reach (step nproc) (fun _ _ _ => True) idle l s) :
    Sound nproc s := by
  have h : Inv nproc s := by
    refine hr.inv (fun _ s => Inv nproc s) ?_ fun _ _ _ _ _ h _ hret => h.next (returns_step.1 hret)
    constructor <;> simp [idle, Drowsy, Pc.spins, Pc.owns, Pc.locks, Pc.drowsy]
  refine ⟨fun p q hp hq => ?_, h.pid, fun hspin hpid p hp => ?_, fun p hp hfree => h.live hp hfree⟩
  · exact Option.some.inj (((h.pid p).2 hp).symm.trans ((h.pid q).2 hq))
  · rcases h.woken p hp with hne | ⟨q, i, hq, -⟩
    · exact hne hpid
    · have hheld := (h.spin q).2 (by rw [hq]; rfl)
      rw [hspin] at hheld
      cases hheld

/-- One of two processes takes the lock, and the other finds it taken. -/
theorem sleep_lock_sound_two :
    ∃ l s, Reach (step 2) (fun _ _ _ => True) idle l s ∧ s.pc 0 = .holding ∧
    s.pc 1 = .locking ∧ Sound 2 s := by
  have hr : Reach (step 2) (fun _ _ _ => True) idle
      [.run 1, .run 1, .acquiresleep 1, .run 0, .run 0, .acquiresleep 0] _ :=
    (((((Reach.start.next trivial ⟨rfl, rfl⟩).next trivial ⟨rfl, rfl⟩).next trivial ⟨rfl, rfl⟩).next
      trivial ⟨rfl, rfl⟩).next trivial ⟨rfl, rfl⟩).next trivial ⟨rfl, rfl⟩
  exact ⟨_, _, hr, rfl, rfl, sleep_lock_sound hr⟩

end Steps

end RaidSystem.SleepLocks
