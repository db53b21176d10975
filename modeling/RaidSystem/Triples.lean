/-
**What a program ends with.**

A program returns or stops with a fault.  `Prog.Ends E x s Q` says that it returns with a value, a
trace and a state as `Q` wants them, or stops with a fault that `E` allows; if `E` allows none, this
is total correctness.  The rules follow the program, so that the goal for a `do` block unfolds into
the goals for its parts.

* `Prog.Ends` — the triple, as a predicate on the state before;
* `Prog.ends_iff` — in terms of runs and faults;
* `Prog.ends_bind` — **sequencing**;
* `Prog.Ends.forRange` — the loop rule.
-/

import RaidSystem.ExactTrace

set_option autoImplicit false

namespace Prog

variable {σ ω ε α β : Type} {E E' : ε → Prop} {x y : Prog σ ω ε α} {f : α → Prog σ ω ε β} {s s' : σ}
  {Q Q' : α → List ω → σ → Prop} {a : α} {t : List ω} {e : ε}

/-- Started in `s`, the program `x` returns with `Q`, or stops with a fault in `E`. -/
def Ends (E : ε → Prop) (x : Prog σ ω ε α) (s : σ) (Q : α → List ω → σ → Prop) : Prop :=
  match x s with
  | ⟨.ok a, s', t⟩ => Q a t s'
  | ⟨.error e, _, _⟩ => E e

theorem Runs.ends_iff (h : Runs x s a t s') : Ends E x s Q ↔ Q a t s' := by
  unfold Runs at h
  rw [Ends, h]

theorem Fails.ends_iff (h : Fails x s e) : Ends E x s Q ↔ E e := by
  unfold Fails at h
  unfold Ends
  rcases hx : x s with ⟨e' | a, s', t⟩
  · rw [hx] at h
    cases h
    rfl
  · rw [hx] at h
    cases h

/-- What `Ends` says of the runs and of the faults. -/
theorem ends_iff : Ends E x s Q ↔
    (∀ a t s', Runs x s a t s' → Q a t s') ∧ ∀ e, Fails x s e → E e := by
  constructor
  · intro h
    exact ⟨fun a t s' hrun => hrun.ends_iff.1 h, fun e hfail => hfail.ends_iff.1 h⟩
  · intro h
    rcases runs_or_fails x s with ⟨a, t, s', hrun⟩ | ⟨e, hfail⟩
    · exact hrun.ends_iff.2 (h.1 a t s' hrun)
    · exact hfail.ends_iff.2 (h.2 e hfail)

/-- With no fault allowed, the program returns. -/
theorem Ends.exists_runs (h : Ends (fun _ => False) x s Q) :
    ∃ a t s', Runs x s a t s' ∧ Q a t s' := by
  rcases runs_or_fails x s with ⟨a, t, s', hrun⟩ | ⟨e, hfail⟩
  · exact ⟨a, t, s', hrun, hrun.ends_iff.1 h⟩
  · exact (hfail.ends_iff.1 h).elim

theorem Ends.mono (h : Ends E x s Q) (hE : ∀ e, E e → E' e) (hQ : ∀ a t s', Q a t s' → Q' a t s') :
    Ends E' x s Q' := by
  rw [Prog.ends_iff] at h ⊢
  exact ⟨fun a t s' hrun => hQ a t s' (h.1 a t s' hrun), fun e hfail => hE e (h.2 e hfail)⟩

theorem Ends.post (h : Ends E x s Q) (hQ : ∀ a t s', Q a t s' → Q' a t s') : Ends E x s Q' :=
  h.mono (fun _ he => he) hQ

/-- With no fault allowed, more may be allowed. -/
theorem Ends.total (h : Ends (fun _ => False) x s Q) : Ends E x s Q :=
  h.mono (fun _ he => he.elim) fun _ _ _ hQ => hQ

theorem Ends.and (h : Ends E x s Q) (h' : Ends E' x s Q') :
    Ends E x s fun a t s' => Q a t s' ∧ Q' a t s' := by
  rw [Prog.ends_iff] at h h' ⊢
  exact ⟨fun a t s' hrun => ⟨h.1 a t s' hrun, h'.1 a t s' hrun⟩, h.2⟩

theorem ends_true : Ends (fun _ => True) x s fun _ _ _ => True :=
  Prog.ends_iff.2 ⟨fun _ _ _ _ => trivial, fun _ _ => trivial⟩

@[simp] theorem ends_pure : Ends E (pure a : Prog σ ω ε α) s Q ↔ Q a [] s :=
  (runs_pure.2 ⟨rfl, rfl, rfl⟩).ends_iff

/-- **Sequencing**: the second part has to end well after whatever the first one ends with. -/
@[simp] theorem ends_bind {Q : β → List ω → σ → Prop} : Ends E (x >>= f) s Q ↔
    Ends E x s fun a t s' => Ends E (f a) s' fun b t' s'' => Q b (t ++ t') s'' := by
  change Ends E (Prog.bind x f) s Q ↔ _
  unfold Ends Prog.bind
  rcases x s with ⟨e | a, s', t⟩
  · rfl
  · dsimp only
    rcases f a s' with ⟨e | b, s'', t'⟩
    · rfl
    · rfl

@[simp] theorem ends_get {Q : σ → List ω → σ → Prop} :
    Ends E (get : Prog σ ω ε σ) s Q ↔ Q s [] s := (get_runs s).ends_iff

@[simp] theorem ends_modify {g : σ → σ} {Q : Unit → List ω → σ → Prop} :
    Ends E (modify g : Prog σ ω ε Unit) s Q ↔ Q () [] (g s) := (modify_runs g s).ends_iff

@[simp] theorem ends_emit {w : ω} {Q : Unit → List ω → σ → Prop} :
    Ends E (emit w : Prog σ ω ε Unit) s Q ↔ Q () [w] s := (emit_runs w s).ends_iff

@[simp] theorem ends_fail : Ends E (fail e : Prog σ ω ε α) s Q ↔ E e := Iff.rfl

theorem ends_ite {c : Prop} [Decidable c] : Ends E (if c then x else y) s Q ↔
    (c → Ends E x s Q) ∧ (¬ c → Ends E y s Q) := by
  by_cases h : c <;> simp [h]

theorem ends_guarded {c : Prop} [Decidable c] {z : Prog σ ω ε Unit} {Q : Unit → List ω → σ → Prop} :
    Ends E (guarded c z) s Q ↔ (c → Ends E z s Q) ∧ (¬ c → Q () [] s) := by
  rw [guarded, ends_ite, ends_pure]

/-- A program on a part of the state. -/
theorem ends_within {τ ε' : Type} {part : τ → σ} {put : τ → σ → τ} {wrap : ε → ε'} {E : ε' → Prop}
    {Q : α → List ω → τ → Prop} {u : τ} : Ends E (within part put wrap x) u Q ↔
      Ends (fun e => E (wrap e)) x (part u) fun a t s' => Q a t (put u s') := by
  unfold Ends within
  rcases x (part u) with ⟨e | a, s', t⟩ <;> rfl

/-- **The loop rule**: every round carries the invariant from its own index to the next. -/
theorem Ends.forRange {body : ℕ → Prog σ ω ε Unit} (I : ℕ → List ω → σ → Prop) {i k : ℕ}
    (hbody : ∀ j t s, i ≤ j → j < i + k → I j t s →
      Ends E (body j) s fun _ t' s' => I (j + 1) (t ++ t') s')
    (h : I i t s) : Ends E (forRange body i k) s fun _ t' s' => I (i + k) (t ++ t') s' := by
  induction k generalizing i t s with
  | zero =>
    rw [forRange_zero, ends_pure, List.append_nil]
    exact h
  | succ k ih =>
    rw [forRange_succ, ends_bind]
    refine (hbody i t s (Nat.le_refl _) (by omega) h).post fun _ t₁ s₁ h₁ => ?_
    have hrest := ih (fun j t s hj hk => hbody j t s (by omega) (by omega)) h₁
    refine hrest.post fun _ t₂ s₂ h₂ => ?_
    rwa [show i + (k + 1) = i + 1 + k by omega, ← List.append_assoc]

end Prog
