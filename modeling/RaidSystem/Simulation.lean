/-
**Two programs, or one program twice.**

To compare what a program does from two states one relates the states by some `R` and follows the
program from both: whatever it returns from the first state, it returns the like from the second,
and the states it leaves are related again.  This module has that judgement and one rule for each
construct of `RaidSystem/Prog.lean`.

For a symmetric `R` the judgement of a program with itself works in both directions: from related
states, either both runs return, or both stop with a fault.

Nothing here is about a particular machine.

* `Prog.Simulates R V x y` — from `R`-related states, `y` follows `x`, with `V`-related values;
* `Prog.Simulates.bind`, `Prog.Simulates.ite`, `Prog.Simulates.forRange` — the rules for the
  constructs;
* `LogReach.simulation` — **the rule for runs**: from related states, the same calls get the same
  replies.
-/

import RaidSystem.Reach

set_option autoImplicit false

namespace Prog

variable {σ ω ε α β γ δ : Type} {R : σ → σ → Prop}

/-- Whatever `x` returns from a state, `y` returns the like from every related state. -/
def Simulates (R : σ → σ → Prop) (V : α → β → Prop) (x : Prog σ ω ε α) (y : Prog σ ω ε β) : Prop :=
  ∀ s t a s', R s t → Returns x s a s' → ∃ b t', Returns y t b t' ∧ V a b ∧ R s' t'

variable {V : α → β → Prop} {W : γ → δ → Prop}

theorem simulates_pure {a : α} {b : β} (h : V a b) :
    Simulates R V (pure a : Prog σ ω ε α) (pure b) := by
  intro s t a' s' hR hr
  obtain ⟨rfl, rfl⟩ := returns_pure.1 hr
  exact ⟨b, t, returns_pure.2 ⟨rfl, rfl⟩, h, hR⟩

theorem simulates_get : Simulates R R (get : Prog σ ω ε σ) get := by
  intro s t a s' hR hr
  obtain ⟨rfl, rfl⟩ := returns_get.1 hr
  exact ⟨t, t, get_returns, hR, hR⟩

theorem simulates_modify {f g : σ → σ} (h : ∀ s t, R s t → R (f s) (g t)) :
    Simulates R Eq (modify f : Prog σ ω ε Unit) (modify g) := by
  intro s t u s' hR hr
  obtain rfl := returns_modify.1 hr
  exact ⟨u, g t, returns_modify.2 rfl, rfl, h s t hR⟩

theorem simulates_emit {w : ω} : Simulates R Eq (emit w : Prog σ ω ε Unit) (emit w) := by
  intro s t u s' hR hr
  obtain rfl := returns_emit.1 hr
  exact ⟨u, t, returns_emit.2 rfl, rfl, hR⟩

theorem simulates_fail {e : ε} {y : Prog σ ω ε β} : Simulates R V (fail e) y := by
  intro s t a s' _ hr
  exact absurd hr not_returns_fail

theorem Simulates.bind {x : Prog σ ω ε α} {y : Prog σ ω ε β} {f : α → Prog σ ω ε γ}
    {g : β → Prog σ ω ε δ} (hx : Simulates R V x y)
    (hf : ∀ a b, V a b → Simulates R W (f a) (g b)) : Simulates R W (x >>= f) (y >>= g) := by
  intro s t c s' hR hr
  obtain ⟨a, s₁, h₁, h₂⟩ := returns_bind.1 hr
  obtain ⟨b, t₁, hy, hab, hR₁⟩ := hx s t a s₁ hR h₁
  obtain ⟨d, t', hg, hcd, hR'⟩ := hf a b hab s₁ t₁ c s' hR₁ h₂
  exact ⟨d, t', returns_bind.2 ⟨b, t₁, hy, hg⟩, hcd, hR'⟩

/-- Sequencing after a program with the same value on both sides. -/
theorem Simulates.bindEq {x y : Prog σ ω ε α} {f : α → Prog σ ω ε γ} {g : α → Prog σ ω ε δ}
    (hx : Simulates R Eq x y) (hf : ∀ a, Simulates R W (f a) (g a)) :
    Simulates R W (x >>= f) (y >>= g) := by
  refine hx.bind ?_
  rintro a _ rfl
  exact hf a

theorem Simulates.ite {c : Prop} [Decidable c] {x x' : Prog σ ω ε α} {y y' : Prog σ ω ε β}
    (h : c → Simulates R V x y) (h' : ¬ c → Simulates R V x' y') :
    Simulates R V (if c then x else x') (if c then y else y') := by
  split
  case isTrue hc => exact h hc
  case isFalse hc => exact h' hc

theorem Simulates.ifTrue {c d : Prog σ ω ε Bool} {x y : Prog σ ω ε Unit} (hc : Simulates R Eq c d)
    (hx : Simulates R Eq x y) : Simulates R Eq (ifTrue c x) (ifTrue d y) := by
  refine hc.bindEq fun b => ?_
  exact Simulates.ite (fun _ => hx) fun _ => simulates_pure rfl

theorem Simulates.ifFalse {c d : Prog σ ω ε Bool} {x y : Prog σ ω ε Unit} (hc : Simulates R Eq c d)
    (hx : Simulates R Eq x y) : Simulates R Eq (ifFalse c x) (ifFalse d y) := by
  refine hc.bindEq fun b => ?_
  exact Simulates.ite (fun _ => simulates_pure rfl) fun _ => hx

theorem Simulates.forRange {body body' : ℕ → Prog σ ω ε Unit} {i k : ℕ}
    (h : ∀ j, i ≤ j → j < i + k → Simulates R Eq (body j) (body' j)) :
    Simulates R Eq (forRange body i k) (forRange body' i k) := by
  induction k generalizing i with
  | zero => exact simulates_pure rfl
  | succ k ih =>
    refine (h i (Nat.le_refl _) (by omega)).bindEq fun _ => ?_
    exact ih fun j h₁ h₂ => h j (by omega) (by omega)

end Prog

open Prog

/-- **The rule for runs.**  If from related states every allowed call gets the same reply and leads
to related states, then so does every run of allowed calls. -/
theorem LogReach.simulation {κ ρ σ ω ε : Type} {step : κ → Prog σ ω ε ρ} {ok : κ → Prop}
    {R : σ → σ → Prop} (hstep : ∀ c, ok c → Simulates R Eq (step c) (step c)) {s₀ t₀ s : σ}
    {l : List (κ × ρ)} (hR : R s₀ t₀) (hr : LogReach step (fun _ c => ok c) s₀ l s) :
    ∃ t, LogReach step (fun _ c => ok c) t₀ l t ∧ R s t := by
  induction hr with
  | start => exact ⟨t₀, .start, hR⟩
  | next _ hok hret ih =>
    obtain ⟨t, ht, hst⟩ := ih
    obtain ⟨_, t', hret', rfl, hst'⟩ := hstep _ hok _ _ _ _ hst hret
    exact ⟨t', ht.next hok hret', hst'⟩
