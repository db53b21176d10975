/-
**Programs with their traces.**

`Prog.Returns` forgets the accesses of a program, and `Prog.Traces` says something about each of
them.  For statements about the accesses as a whole, such as what was sent so far and in which
order, one needs the list itself.

* `Prog.Runs x s a t s'` — started in `s`, the program `x` returns `a`, leaves `s'`, and `t` are the
  accesses it performed;
* `Prog.runs_bind` — **sequencing appends the traces**;
* `Prog.traced` — the program that returns its own trace, so that the replies of a run hold it.
-/

import RaidSystem.Prog

set_option autoImplicit false

namespace Prog

variable {σ ω ε α β : Type}

/-- Started in `s`, the program `x` returns `a` and leaves `s'`, after the accesses `t`. -/
def Runs (x : Prog σ ω ε α) (s : σ) (a : α) (t : List ω) (s' : σ) : Prop := x s = ⟨.ok a, s', t⟩

theorem Runs.returns {x : Prog σ ω ε α} {s s' : σ} {a : α} {t : List ω} (h : Runs x s a t s') :
    Returns x s a s' := by
  unfold Runs at h
  rw [Returns, h]
  exact ⟨rfl, rfl⟩

@[simp] theorem runs_pure {a b : α} {s s' : σ} {t : List ω} :
    Runs (pure a : Prog σ ω ε α) s b t s' ↔ b = a ∧ t = [] ∧ s' = s := by
  change (⟨.ok a, s, []⟩ : Outcome σ ω ε α) = ⟨.ok b, s', t⟩ ↔ _
  simp only [Outcome.mk.injEq, Except.ok.injEq, eq_comm (a := a), eq_comm (a := s),
    eq_comm (a := ([] : List ω)), and_comm (a := s' = s)]

/-- **Sequencing**: the trace is that of the first part followed by that of the second. -/
theorem runs_bind {x : Prog σ ω ε α} {f : α → Prog σ ω ε β} {s s'' : σ} {b : β} {t : List ω} :
    Runs (x >>= f) s b t s'' ↔
      ∃ a t₁ s' t₂, Runs x s a t₁ s' ∧ Runs (f a) s' b t₂ s'' ∧ t = t₁ ++ t₂ := by
  change Prog.bind x f s = _ ↔ _
  unfold Runs Prog.bind
  rcases x s with ⟨e | a, s', t₁⟩
  · simp
  · constructor
    · intro h
      obtain ⟨hval, hstate, htrace⟩ := Outcome.mk.inj h
      exact ⟨a, t₁, s', (f a s').trace, rfl, by rw [← hval, ← hstate], htrace.symm⟩
    · rintro ⟨a', t₁', s₁, t₂, hx, hf, rfl⟩
      cases hx
      simp only [hf]

/-- Symbolic execution: once it is known what `x` does, only the continuation is left. -/
theorem Runs.bind_iff {x : Prog σ ω ε α} {f : α → Prog σ ω ε β} {s s₁ s' : σ} {a : α} {b : β}
    {t₁ t : List ω} (h : Runs x s a t₁ s₁) :
    Runs (x >>= f) s b t s' ↔ ∃ t₂, Runs (f a) s₁ b t₂ s' ∧ t = t₁ ++ t₂ := by
  rw [runs_bind]
  constructor
  · rintro ⟨a', t₁', s₂, t₂, hx, hf, rfl⟩
    cases h.symm.trans hx
    exact ⟨t₂, hf, rfl⟩
  · rintro ⟨t₂, hf, rfl⟩
    exact ⟨a, t₁, s₁, t₂, h, hf, rfl⟩

/-- The trace of a sequence, whether or not it returns. -/
theorem Runs.trace_bind {x : Prog σ ω ε α} {f : α → Prog σ ω ε β} {s s₁ : σ} {a : α} {t₁ : List ω}
    (h : Runs x s a t₁ s₁) : ((x >>= f) s).trace = t₁ ++ (f a s₁).trace := by
  change (Prog.bind x f s).trace = _
  unfold Runs at h
  simp only [Prog.bind, h]

/-- The same for a part without accesses. -/
theorem Runs.silent_iff {x : Prog σ ω ε α} {f : α → Prog σ ω ε β} {s s₁ s' : σ} {a : α} {b : β}
    {t : List ω} (h : Runs x s a [] s₁) : Runs (x >>= f) s b t s' ↔ Runs (f a) s₁ b t s' := by
  rw [h.bind_iff]
  constructor
  · rintro ⟨t₂, hf, rfl⟩
    exact hf
  · intro hf
    exact ⟨t, hf, rfl⟩

@[simp] theorem runs_get {s a s' : σ} {t : List ω} :
    Runs (get : Prog σ ω ε σ) s a t s' ↔ a = s ∧ t = [] ∧ s' = s := runs_pure (a := s) (s := s)

@[simp] theorem runs_modify {f : σ → σ} {s s' : σ} {u : Unit} {t : List ω} :
    Runs (modify f : Prog σ ω ε Unit) s u t s' ↔ t = [] ∧ s' = f s := by
  change Runs (pure () : Prog σ ω ε Unit) (f s) u t s' ↔ _
  simp

@[simp] theorem runs_emit {w : ω} {s s' : σ} {u : Unit} {t : List ω} :
    Runs (emit w : Prog σ ω ε Unit) s u t s' ↔ t = [w] ∧ s' = s := by
  change (⟨.ok (), s, [w]⟩ : Outcome σ ω ε Unit) = ⟨.ok u, s', t⟩ ↔ _
  simp only [Outcome.mk.injEq, true_and, eq_comm (a := s), eq_comm (a := [w]),
    and_comm (a := s' = s)]

theorem get_runs (s : σ) : Runs (get : Prog σ ω ε σ) s s [] s := runs_get.2 ⟨rfl, rfl, rfl⟩

theorem modify_runs (f : σ → σ) (s : σ) : Runs (modify f : Prog σ ω ε Unit) s () [] (f s) :=
  runs_modify.2 ⟨rfl, rfl⟩

theorem emit_runs (w : ω) (s : σ) : Runs (emit w : Prog σ ω ε Unit) s () [w] s :=
  runs_emit.2 ⟨rfl, rfl⟩

@[simp] theorem not_runs_fail {e : ε} {s s' : σ} {a : α} {t : List ω} :
    ¬ Runs (fail e : Prog σ ω ε α) s a t s' := fun h => not_returns_fail h.returns

/-- A conditional does what the branch taken does. -/
theorem runs_ite {c : Prop} [Decidable c] {x y : Prog σ ω ε α} {s s' : σ} {a : α} {t : List ω} :
    Runs (if c then x else y) s a t s' ↔ (c ∧ Runs x s a t s') ∨ (¬ c ∧ Runs y s a t s') := by
  by_cases h : c <;> simp [h]

/-- A program returns or stops with a fault. -/
theorem runs_or_fails (x : Prog σ ω ε α) (s : σ) :
    (∃ a t s', Runs x s a t s') ∨ ∃ e, Fails x s e := by
  unfold Runs Fails
  rcases x s with ⟨e | a, s', t⟩
  · exact .inr ⟨e, rfl⟩
  · exact .inl ⟨a, t, s', rfl⟩

theorem Returns.runs {x : Prog σ ω ε α} {s s' : σ} {a : α} (h : Returns x s a s') :
    ∃ t, Runs x s a t s' := by
  rcases runs_or_fails x s with ⟨b, t, s₁, hrun⟩ | ⟨e, he⟩
  · obtain ⟨rfl, rfl⟩ := h.unique hrun.returns
    exact ⟨t, hrun⟩
  · exact absurd he h.not_fails

/-- A program that returns its trace beside its value. -/
def traced (x : Prog σ ω ε α) : Prog σ ω ε (α × List ω) := fun s =>
  match x s with
  | ⟨.error e, s', t⟩ => ⟨.error e, s', t⟩
  | ⟨.ok a, s', t⟩ => ⟨.ok (a, t), s', t⟩

theorem returns_traced {x : Prog σ ω ε α} {s s' : σ} {a : α} {t : List ω} :
    Returns (traced x) s (a, t) s' ↔ Runs x s a t s' := by
  unfold Returns Runs traced
  rcases x s with ⟨e | b, s₁, t₁⟩
  · simp
  · simp only [Except.ok.injEq, Prod.mk.injEq, Outcome.mk.injEq, and_assoc, and_comm (a := t₁ = t)]

theorem traced_state (x : Prog σ ω ε α) (s : σ) : (traced x s).state = (x s).state := by
  unfold traced
  rcases x s with ⟨e | b, s₁, t₁⟩ <;> rfl

/-- A run on a fixed state, by evaluation of its value. -/
theorem runs_of_eval {x : Prog σ ω ε α} {s : σ} {a : α} (h : (x s).val.toOption = some a) :
    Runs x s a (x s).trace (x s).state := by
  unfold Runs
  revert h
  rcases x s with ⟨e | b, s₁, t₁⟩
  · exact nofun
  · rintro ⟨⟩
    rfl

theorem returns_of_eval {x : Prog σ ω ε α} {s : σ} {a : α} (h : (x s).val.toOption = some a) :
    Returns x s a (x s).state := (runs_of_eval h).returns

end Prog
