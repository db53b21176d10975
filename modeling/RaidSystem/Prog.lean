/-
**Programs with a state, faults and a trace.**

A routine of a kernel reads and writes a machine state, may run into a fault from which it does
not come back, and on the way performs accesses (table lookups, block transfers) that one wants to
talk about even when they leave no mark on the state.  `Prog σ ω ε α` is the type of such
routines: from a state of type `σ` a program yields a value of type `α` or a fault of type `ε`,
the state it leaves behind, and the list of accesses of type `ω` it performed, in order.  The
trace survives a fault, so that the access which caused the fault is still in it.

Nothing here is about a particular machine.

Main definitions:

* `Outcome`, `Prog` — outcomes and programs, with the `Monad` instance that makes `do` blocks
  available;
* `Prog.get`, `Prog.modify`, `Prog.fail`, `Prog.emit` — the primitive programs;
* `Prog.guarded`, `Prog.ifTrue`, `Prog.ifFalse` — statements guarded by a condition or a test;
* `Prog.forRange` — a counting loop `for (j = i; j < i + k; ++j)`;
* `Prog.Returns x s a s'` — started in `s`, the program `x` returns `a` and leaves `s'`;
* `Prog.Fails x s e` — started in `s`, the program `x` stops with the fault `e`;
* `Prog.within` — a program that works on a part of a larger state;
* `Prog.Traces P x s` — every access that `x` performs when started in `s` satisfies `P`;
* `Prog.Preserves f x` — `x` leaves the part `f` of the state alone.

Main results:

* `Prog.returns_bind`, `Prog.traces_bind` — how the two judgements follow sequencing;
* `Prog.forRange_returns`, `Prog.forRange_inv`, `Prog.forRange_traces` — **the loop rules**: total
  correctness, partial correctness, and the accesses of a loop, each from an invariant.
-/

import Mathlib.Data.Nat.Notation

set_option autoImplicit false

/-- What a program leaves: a value or a fault, the final state, and the accesses performed. -/
structure Outcome (σ ω ε α : Type) where
  /-- The value returned, or the fault that stopped the program. -/
  val : Except ε α
  /-- The state left behind. -/
  state : σ
  /-- The accesses performed, oldest first. -/
  trace : List ω

/-- Programs over states `σ` that perform accesses `ω` and may stop with a fault `ε`. -/
def Prog (σ ω ε α : Type) : Type := σ → Outcome σ ω ε α

namespace Prog

variable {σ ω ε α β : Type}

/-! ### The monad -/

/-- Return a value, touching nothing. -/
protected def pure (a : α) : Prog σ ω ε α := fun s => ⟨.ok a, s, []⟩

/-- Run `x`, then `f` on its value.  A fault of `x` stops the sequence; the trace of `x` stays. -/
protected def bind (x : Prog σ ω ε α) (f : α → Prog σ ω ε β) : Prog σ ω ε β := fun s =>
  match x s with
  | ⟨.error e, s', t⟩ => ⟨.error e, s', t⟩
  | ⟨.ok a, s', t⟩ => ⟨(f a s').val, (f a s').state, t ++ (f a s').trace⟩

instance : Monad (Prog σ ω ε) where
  pure := Prog.pure
  bind := Prog.bind

/-- Read the state. -/
def get : Prog σ ω ε σ := fun s => ⟨.ok s, s, []⟩

/-- Replace the state by its image under `f`. -/
def modify (f : σ → σ) : Prog σ ω ε Unit := fun s => ⟨.ok (), f s, []⟩

/-- Stop with the fault `e`. -/
def fail (e : ε) : Prog σ ω ε α := fun s => ⟨.error e, s, []⟩

/-- Record the access `w`. -/
def emit (w : ω) : Prog σ ω ε Unit := fun s => ⟨.ok (), s, [w]⟩

/-- Run `x` if `c` holds. -/
def guarded (c : Prop) [Decidable c] (x : Prog σ ω ε Unit) : Prog σ ω ε Unit :=
  if c then x else pure ()

/-- Run `x` if the test `c` answers yes. -/
def ifTrue (c : Prog σ ω ε Bool) (x : Prog σ ω ε Unit) : Prog σ ω ε Unit := do
  if ← c then x else pure ()

/-- Run `x` if the test `c` answers no. -/
def ifFalse (c : Prog σ ω ε Bool) (x : Prog σ ω ε Unit) : Prog σ ω ε Unit := do
  if ← c then pure () else x

/-- The counting loop: `body i`, `body (i + 1)`, …, `body (i + k - 1)`. -/
def forRange (body : ℕ → Prog σ ω ε Unit) : ℕ → ℕ → Prog σ ω ε Unit
  | _, 0 => pure ()
  | i, k + 1 => do
    body i
    forRange body (i + 1) k

/-! ### Returning -/

/-- Started in `s`, the program `x` returns `a` and leaves the state `s'`. -/
def Returns (x : Prog σ ω ε α) (s : σ) (a : α) (s' : σ) : Prop :=
  (x s).val = .ok a ∧ (x s).state = s'

/-- A program returns at most one value and one state. -/
theorem Returns.unique {x : Prog σ ω ε α} {s : σ} {a a' : α} {s₁ s₂ : σ} (h₁ : Returns x s a s₁)
    (h₂ : Returns x s a' s₂) : a = a' ∧ s₁ = s₂ := by
  refine ⟨?_, h₁.2.symm.trans h₂.2⟩
  have h := h₁.1.symm.trans h₂.1
  simpa using h

@[simp] theorem returns_pure {a b : α} {s s' : σ} :
    Returns (pure a : Prog σ ω ε α) s b s' ↔ b = a ∧ s' = s := by
  change (Except.ok a = Except.ok b ∧ s = s') ↔ _
  simp [eq_comm]

/-- Sequencing: `x` returns, and then the continuation returns from where `x` stopped. -/
@[simp] theorem returns_bind {x : Prog σ ω ε α} {f : α → Prog σ ω ε β} {s s'' : σ} {b : β} :
    Returns (x >>= f) s b s'' ↔ ∃ a s', Returns x s a s' ∧ Returns (f a) s' b s'' := by
  change Returns (Prog.bind x f) s b s'' ↔ _
  unfold Returns Prog.bind
  rcases x s with ⟨_ | a, s', t⟩
  · simp
  · constructor
    · intro h
      exact ⟨a, s', ⟨rfl, rfl⟩, h⟩
    · rintro ⟨a', s₁, ⟨ha, hs⟩, h⟩
      cases ha
      subst hs
      exact h

/-- Symbolic execution: once it is known what `x` returns, only the continuation is left. -/
theorem Returns.bind_iff {x : Prog σ ω ε α} {f : α → Prog σ ω ε β} {s s₁ s' : σ} {a : α} {b : β}
    (h : Returns x s a s₁) : Returns (x >>= f) s b s' ↔ Returns (f a) s₁ b s' := by
  rw [returns_bind]
  constructor
  · rintro ⟨a', s₂, hx, hf⟩
    obtain ⟨rfl, rfl⟩ := h.unique hx
    exact hf
  · intro hf
    exact ⟨a, s₁, h, hf⟩

/-- A program whose value is only repackaged. -/
theorem returns_bind_pure {x : Prog σ ω ε α} {f : α → β} {s s' : σ} {b : β} :
    Returns (x >>= fun a => pure (f a)) s b s' ↔ ∃ a, Returns x s a s' ∧ b = f a := by
  rw [returns_bind]
  constructor
  · rintro ⟨a, s₁, hx, hp⟩
    obtain ⟨rfl, rfl⟩ := returns_pure.1 hp
    exact ⟨a, hx, rfl⟩
  · rintro ⟨a, hx, rfl⟩
    exact ⟨a, s', hx, returns_pure.2 ⟨rfl, rfl⟩⟩

@[simp] theorem returns_get {s a s' : σ} :
    Returns (get : Prog σ ω ε σ) s a s' ↔ a = s ∧ s' = s := by
  change (Except.ok s = Except.ok a ∧ s = s') ↔ _
  simp [eq_comm]

theorem get_returns {s : σ} : Returns (get : Prog σ ω ε σ) s s s := ⟨rfl, rfl⟩

@[simp] theorem returns_modify {f : σ → σ} {s s' : σ} {u : Unit} :
    Returns (modify f : Prog σ ω ε Unit) s u s' ↔ s' = f s := by
  change (Except.ok () = Except.ok u ∧ f s = s') ↔ _
  simp [eq_comm]

theorem modify_returns {f : σ → σ} {s : σ} : Returns (modify f : Prog σ ω ε Unit) s () (f s) :=
  ⟨rfl, rfl⟩

@[simp] theorem returns_emit {w : ω} {s s' : σ} {u : Unit} :
    Returns (emit w : Prog σ ω ε Unit) s u s' ↔ s' = s := by
  change (Except.ok () = Except.ok u ∧ s = s') ↔ _
  simp [eq_comm]

@[simp] theorem not_returns_fail {e : ε} {s s' : σ} {a : α} :
    ¬ Returns (fail e : Prog σ ω ε α) s a s' := by
  rintro ⟨h, -⟩
  cases h

/-- A conditional returns what the branch taken returns. -/
theorem returns_ite {c : Prop} [Decidable c] {x y : Prog σ ω ε α} {s s' : σ} {a : α} :
    Returns (if c then x else y) s a s' ↔
      (c ∧ Returns x s a s') ∨ (¬ c ∧ Returns y s a s') := by
  by_cases h : c <;> simp [h]

theorem Returns.ifTrue_iff {c : Prog σ ω ε Bool} {x : Prog σ ω ε Unit} {s s₁ s' : σ} {b : Bool}
    {u : Unit} (h : Returns c s b s₁) :
    Returns (ifTrue c x) s u s' ↔ b = true ∧ Returns x s₁ u s' ∨ b = false ∧ s' = s₁ := by
  rw [ifTrue, h.bind_iff]
  cases b <;> simp

theorem Returns.ifFalse_iff {c : Prog σ ω ε Bool} {x : Prog σ ω ε Unit} {s s₁ s' : σ} {b : Bool}
    {u : Unit} (h : Returns c s b s₁) :
    Returns (ifFalse c x) s u s' ↔ b = true ∧ s' = s₁ ∨ b = false ∧ Returns x s₁ u s' := by
  rw [ifFalse, h.bind_iff]
  cases b <;> simp

/-! ### Failing -/

/-- Started in `s`, the program `x` stops with the fault `e`. -/
def Fails (x : Prog σ ω ε α) (s : σ) (e : ε) : Prop := (x s).val = .error e

theorem Returns.not_fails {x : Prog σ ω ε α} {s s' : σ} {a : α} {e : ε} (h : Returns x s a s') :
    ¬ Fails x s e := by
  intro he
  have := h.1.symm.trans he
  simp at this

@[simp] theorem not_fails_pure {a : α} {s : σ} {e : ε} :
    ¬ Fails (pure a : Prog σ ω ε α) s e := (returns_pure.2 ⟨rfl, rfl⟩).not_fails

@[simp] theorem not_fails_modify {f : σ → σ} {s : σ} {e : ε} :
    ¬ Fails (modify f : Prog σ ω ε Unit) s e := modify_returns.not_fails

@[simp] theorem fails_fail {s : σ} {e e' : ε} : Fails (fail e : Prog σ ω ε α) s e' ↔ e' = e := by
  change (Except.error e : Except ε α) = .error e' ↔ _
  simp [eq_comm]

/-- Sequencing: the first part stops, or it returns and the continuation stops. -/
@[simp] theorem fails_bind {x : Prog σ ω ε α} {f : α → Prog σ ω ε β} {s : σ} {e : ε} :
    Fails (x >>= f) s e ↔ Fails x s e ∨ ∃ a s', Returns x s a s' ∧ Fails (f a) s' e := by
  change Fails (Prog.bind x f) s e ↔ _
  unfold Fails Returns Prog.bind
  rcases x s with ⟨e' | a, s', t⟩
  · simp
  · constructor
    · intro h
      exact .inr ⟨a, s', ⟨rfl, rfl⟩, h⟩
    · rintro (h | ⟨a', s₁, ⟨ha, hs⟩, h⟩)
      · cases h
      · cases ha
        subst hs
        exact h

theorem Returns.fails_bind_iff {x : Prog σ ω ε α} {f : α → Prog σ ω ε β} {s s₁ : σ} {a : α} {e : ε}
    (h : Returns x s a s₁) : Fails (x >>= f) s e ↔ Fails (f a) s₁ e := by
  rw [fails_bind]
  constructor
  · rintro (he | ⟨a', s₂, hx, hf⟩)
    · exact absurd he h.not_fails
    · obtain ⟨rfl, rfl⟩ := h.unique hx
      exact hf
  · intro hf
    exact .inr ⟨a, s₁, h, hf⟩

/-! ### Programs on a part of the state -/

/-- Run `x` on a part of a larger state; `put` replaces the part, and `wrap` embeds the faults. -/
def within {τ ε' : Type} (part : τ → σ) (put : τ → σ → τ) (wrap : ε → ε') (x : Prog σ ω ε α) :
    Prog τ ω ε' α := fun t =>
  ⟨(x (part t)).val.mapError wrap, put t (x (part t)).state, (x (part t)).trace⟩

theorem returns_within {τ ε' : Type} {part : τ → σ} {put : τ → σ → τ} {wrap : ε → ε'}
    {x : Prog σ ω ε α} {t t' : τ} {a : α} :
    Returns (within part put wrap x) t a t' ↔ ∃ s', Returns x (part t) a s' ∧ t' = put t s' := by
  unfold Returns within
  rcases x (part t) with ⟨e | b, s₁, w⟩
  · constructor
    · rintro ⟨hval, -⟩
      cases hval
    · rintro ⟨_, ⟨hval, -⟩, -⟩
      cases hval
  · constructor
    · rintro ⟨hval, rfl⟩
      cases hval
      exact ⟨s₁, ⟨rfl, rfl⟩, rfl⟩
    · rintro ⟨_, ⟨hval, rfl⟩, rfl⟩
      cases hval
      exact ⟨rfl, rfl⟩

/-! ### Traces -/

/-- Every access of `x`, started in `s`, satisfies `P`. -/
def Traces (P : ω → Prop) (x : Prog σ ω ε α) (s : σ) : Prop :=
  ∀ w ∈ (x s).trace, P w

theorem Traces.mono {P Q : ω → Prop} {x : Prog σ ω ε α} {s : σ} (h : Traces P x s)
    (hPQ : ∀ w, P w → Q w) : Traces Q x s :=
  fun w hw => hPQ w (h w hw)

@[simp] theorem traces_pure {P : ω → Prop} {a : α} {s : σ} :
    Traces P (pure a : Prog σ ω ε α) s := by
  intro w hw
  cases hw

/-- Sequencing: the accesses of `x`, and those of the continuation if `x` returns. -/
@[simp] theorem traces_bind {P : ω → Prop} {x : Prog σ ω ε α} {f : α → Prog σ ω ε β} {s : σ} :
    Traces P (x >>= f) s ↔
      Traces P x s ∧ ∀ a s', Returns x s a s' → Traces P (f a) s' := by
  change Traces P (Prog.bind x f) s ↔ _
  unfold Traces Returns Prog.bind
  rcases x s with ⟨_ | a, s', t⟩
  · simp
  · constructor
    · intro h
      refine ⟨fun w hw => h w (List.mem_append_left _ hw), ?_⟩
      rintro a' s'' ⟨ha, hs⟩ w hw
      cases ha
      subst hs
      exact h w (List.mem_append_right _ hw)
    · rintro ⟨hx, hf⟩ w hw
      rcases List.mem_append.1 hw with hw | hw
      · exact hx w hw
      · exact hf a s' ⟨rfl, rfl⟩ w hw

theorem Returns.traces_bind_iff {P : ω → Prop} {x : Prog σ ω ε α} {f : α → Prog σ ω ε β} {s s₁ : σ}
    {a : α} (h : Returns x s a s₁) :
    Traces P (x >>= f) s ↔ Traces P x s ∧ Traces P (f a) s₁ := by
  rw [traces_bind]
  refine and_congr_right fun _ => ⟨fun hf => hf a s₁ h, fun hf a' s₂ hx => ?_⟩
  obtain ⟨rfl, rfl⟩ := h.unique hx
  exact hf

@[simp] theorem traces_get {P : ω → Prop} {s : σ} : Traces P (get : Prog σ ω ε σ) s := by
  intro w hw
  cases hw

@[simp] theorem traces_modify {P : ω → Prop} {f : σ → σ} {s : σ} :
    Traces P (modify f : Prog σ ω ε Unit) s := by
  intro w hw
  cases hw

@[simp] theorem traces_fail {P : ω → Prop} {e : ε} {s : σ} :
    Traces P (fail e : Prog σ ω ε α) s := by
  intro w hw
  cases hw

@[simp] theorem traces_emit {P : ω → Prop} {w : ω} {s : σ} :
    Traces P (emit w : Prog σ ω ε Unit) s ↔ P w := by
  change (∀ v ∈ [w], P v) ↔ _
  simp

/-- A conditional performs the accesses of the branch taken. -/
theorem traces_ite {P : ω → Prop} {c : Prop} [Decidable c] {x y : Prog σ ω ε α} {s : σ} :
    Traces P (if c then x else y) s ↔ (c → Traces P x s) ∧ (¬ c → Traces P y s) := by
  by_cases h : c <;> simp [h]

theorem traces_ifTrue {P : ω → Prop} {c : Prog σ ω ε Bool} {x : Prog σ ω ε Unit} {s : σ} :
    Traces P (ifTrue c x) s ↔
      Traces P c s ∧ ∀ s₁, Returns c s true s₁ → Traces P x s₁ := by
  simp only [ifTrue, traces_bind, traces_ite, traces_pure, implies_true, and_true]
  constructor
  · rintro ⟨hc, hx⟩
    exact ⟨hc, fun s₁ h => hx true s₁ h rfl⟩
  · rintro ⟨hc, hx⟩
    refine ⟨hc, ?_⟩
    rintro b s₁ h rfl
    exact hx s₁ h

theorem traces_ifFalse {P : ω → Prop} {c : Prog σ ω ε Bool} {x : Prog σ ω ε Unit} {s : σ} :
    Traces P (ifFalse c x) s ↔
      Traces P c s ∧ ∀ s₁, Returns c s false s₁ → Traces P x s₁ := by
  simp only [ifFalse, traces_bind, traces_ite, traces_pure, implies_true, true_and]
  constructor
  · rintro ⟨hc, hx⟩
    exact ⟨hc, fun s₁ h => hx false s₁ h (by simp)⟩
  · rintro ⟨hc, hx⟩
    refine ⟨hc, ?_⟩
    intro b s₁ h hb
    have hb' : b = false := by simpa using hb
    subst hb'
    exact hx s₁ h

/-! ### Loops -/

theorem forRange_zero (body : ℕ → Prog σ ω ε Unit) (i : ℕ) :
    forRange body i 0 = pure () := rfl

theorem forRange_succ (body : ℕ → Prog σ ω ε Unit) (i k : ℕ) :
    forRange body i (k + 1) = (do body i; forRange body (i + 1) k) := rfl

/-- **Total correctness of a loop.**  If every round returns and carries the invariant from its
own index to the next, the loop returns and the invariant holds at the end. -/
theorem forRange_returns {body : ℕ → Prog σ ω ε Unit} (I : ℕ → σ → Prop) {i k : ℕ} {s : σ}
    (hbody : ∀ j s, i ≤ j → j < i + k → I j s → ∃ s', Returns (body j) s () s' ∧ I (j + 1) s')
    (h : I i s) : ∃ s', Returns (forRange body i k) s () s' ∧ I (i + k) s' := by
  induction k generalizing i s with
  | zero => exact ⟨s, by simp [forRange_zero], h⟩
  | succ k ih =>
    obtain ⟨s₁, hr, hI⟩ := hbody i s (Nat.le_refl _) (by omega) h
    obtain ⟨s₂, hr₂, hI₂⟩ :=
      ih (fun j s hj hk => hbody j s (by omega) (by omega)) hI
    refine ⟨s₂, ?_, by rwa [show i + (k + 1) = i + 1 + k by omega]⟩
    rw [forRange_succ, returns_bind]
    exact ⟨(), s₁, hr, hr₂⟩

/-- **Partial correctness of a loop.**  An invariant that every returning round carries from its
index to the next holds at the end of a returning loop. -/
theorem forRange_inv {body : ℕ → Prog σ ω ε Unit} (I : ℕ → σ → Prop) {i k : ℕ} {s s' : σ} {u : Unit}
    (hbody : ∀ j s s', i ≤ j → j < i + k → I j s → Returns (body j) s () s' → I (j + 1) s')
    (h : I i s) (hr : Returns (forRange body i k) s u s') : I (i + k) s' := by
  induction k generalizing i s with
  | zero =>
    rw [forRange_zero, returns_pure] at hr
    rwa [hr.2]
  | succ k ih =>
    rw [forRange_succ, returns_bind] at hr
    obtain ⟨_, s₁, h₁, h₂⟩ := hr
    rw [show i + (k + 1) = i + 1 + k by omega]
    exact ih (fun j s s' hj hk => hbody j s s' (by omega) (by omega))
      (hbody i s s₁ (Nat.le_refl _) (by omega) h h₁) h₂

/-- Every round of a returning loop returned, from a state in which an invariant held. -/
theorem forRange_round {body : ℕ → Prog σ ω ε Unit} {I : σ → Prop} {i k j : ℕ} {s s' : σ} {u : Unit}
    (hbody : ∀ j s s', I s → Returns (body j) s () s' → I s') (h : I s)
    (hr : Returns (forRange body i k) s u s') (h₁ : i ≤ j) (h₂ : j < i + k) :
    ∃ s₁ s₂, I s₁ ∧ Returns (body j) s₁ () s₂ := by
  induction k generalizing i s with
  | zero => omega
  | succ k ih =>
    rw [forRange_succ, returns_bind] at hr
    obtain ⟨_, s₁, hfirst, hrest⟩ := hr
    rcases Nat.eq_or_lt_of_le h₁ with rfl | hlt
    · exact ⟨s, s₁, h, hfirst⟩
    · exact ih (hbody i s s₁ h hfirst) hrest hlt (by omega)

/-- **The accesses of a loop.**  If, under an invariant carried by returning rounds, the accesses
of every round satisfy `P`, so do those of the loop. -/
theorem forRange_traces {P : ω → Prop} {body : ℕ → Prog σ ω ε Unit} (I : ℕ → σ → Prop) {i k : ℕ}
    {s : σ} (hbody : ∀ j s s', i ≤ j → j < i + k → I j s → Returns (body j) s () s' → I (j + 1) s')
    (htr : ∀ j s, i ≤ j → j < i + k → I j s → Traces P (body j) s) (h : I i s) :
    Traces P (forRange body i k) s := by
  induction k generalizing i s with
  | zero => simp [forRange_zero]
  | succ k ih =>
    rw [forRange_succ, traces_bind]
    refine ⟨htr i s (Nat.le_refl _) (by omega) h, ?_⟩
    intro _ s₁ h₁
    exact ih (fun j s s' hj hk => hbody j s s' (by omega) (by omega))
      (fun j s hj hk => htr j s (by omega) (by omega))
      (hbody i s s₁ (Nat.le_refl _) (by omega) h h₁)

/-- The accesses of the first round are among those of the loop. -/
theorem Traces.forRange_first {P : ω → Prop} {body : ℕ → Prog σ ω ε Unit} {i k : ℕ} {s : σ}
    (hk : 1 ≤ k) (h : Traces P (forRange body i k) s) : Traces P (body i) s := by
  obtain ⟨k, rfl⟩ : ∃ j, k = j + 1 := ⟨k - 1, by omega⟩
  rw [forRange_succ] at h
  exact (traces_bind.1 h).1

/-! ### What a program leaves alone -/

/-- No run of `x` that returns changes the part `f` of the state. -/
def Preserves {γ : Type} (f : σ → γ) (x : Prog σ ω ε α) : Prop :=
  ∀ s a s', Returns x s a s' → f s' = f s

section Preserves

variable {γ : Type} {f : σ → γ}

theorem preserves_pure {a : α} : Preserves f (pure a : Prog σ ω ε α) := by
  intro s b s' h
  rw [(returns_pure.1 h).2]

theorem preserves_get : Preserves f (get : Prog σ ω ε σ) := by
  intro s a s' h
  rw [(returns_get.1 h).2]

theorem preserves_emit {w : ω} : Preserves f (emit w : Prog σ ω ε Unit) := by
  intro s u s' h
  rw [returns_emit.1 h]

theorem preserves_fail {e : ε} : Preserves f (fail e : Prog σ ω ε α) := by
  intro s a s' h
  exact absurd h not_returns_fail

theorem preserves_modify {g : σ → σ} (hg : ∀ s, f (g s) = f s) :
    Preserves f (modify g : Prog σ ω ε Unit) := by
  intro s u s' h
  rw [returns_modify.1 h, hg]

theorem Preserves.bind {x : Prog σ ω ε α} {k : α → Prog σ ω ε β} (hx : Preserves f x)
    (hk : ∀ a, Preserves f (k a)) : Preserves f (x >>= k) := by
  intro s b s' h
  obtain ⟨a, s₁, h₁, h₂⟩ := returns_bind.1 h
  rw [hk a s₁ b s' h₂, hx s a s₁ h₁]

theorem Preserves.ite {c : Prop} [Decidable c] {x y : Prog σ ω ε α} (hx : Preserves f x)
    (hy : Preserves f y) : Preserves f (if c then x else y) := by
  split
  · exact hx
  · exact hy

theorem Preserves.ifTrue {c : Prog σ ω ε Bool} {x : Prog σ ω ε Unit} (hc : Preserves f c)
    (hx : Preserves f x) : Preserves f (ifTrue c x) :=
  hc.bind fun _ => hx.ite preserves_pure

theorem Preserves.ifFalse {c : Prog σ ω ε Bool} {x : Prog σ ω ε Unit} (hc : Preserves f c)
    (hx : Preserves f x) : Preserves f (ifFalse c x) :=
  hc.bind fun _ => preserves_pure.ite hx

theorem Preserves.forRange {body : ℕ → Prog σ ω ε Unit} (hbody : ∀ i, Preserves f (body i))
    (i k : ℕ) : Preserves f (forRange body i k) := by
  induction k generalizing i with
  | zero => exact preserves_pure
  | succ k ih => exact (hbody i).bind fun _ => ih (i + 1)

end Preserves

end Prog
