/-
**Programs that may be cut off.**

When a machine stops, what it has written to its disk stays, and everything else is lost.  So
besides what holds when a program returns one wants to know what holds of the disk at any moment
before that.  The accesses in the trace of a program are the writes here, and `act` is what one of
them does to the durable part of the state.

Nothing here is about a particular machine.

Main definitions:

* `Prog.CutOff x s t` — started in `s`, the program `x` may be cut off after the accesses `t`;
* `Prog.CrashSafe durable act C E x s Q` — wherever `x` is cut off, the durable state satisfies `C`;
  if it stops by itself, the fault satisfies `E`; and if it returns, the value and the state satisfy
  `Q`.

Main results:

* `Prog.cutOff_bind` — where a sequence may be cut off;
* `Prog.CrashSafe.bind`, `Prog.CrashSafe.store`, `Prog.CrashSafe.forRange` — **the rules** for
  sequences, writes and loops.
-/

import RaidSystem.ExactTrace

set_option autoImplicit false

namespace Prog

variable {σ ω ε α β δ : Type}

/-! ### Where a program may be cut off -/

/-- Started in `s`, the program `x` has performed the accesses `t` at some moment. -/
def CutOff (x : Prog σ ω ε α) (s : σ) (t : List ω) : Prop := t <+: (x s).trace

/-- A part of a sequence of two lists lies in the first, or contains it. -/
theorem prefix_of_append {l l₁ l₂ : List ω} :
    l <+: l₁ ++ l₂ ↔ l <+: l₁ ∨ ∃ t, t <+: l₂ ∧ l = l₁ ++ t := by
  constructor
  · intro h
    rcases List.prefix_or_prefix_of_prefix h (List.prefix_append l₁ l₂) with hl | ⟨t, rfl⟩
    · exact .inl hl
    · exact .inr ⟨t, (List.prefix_append_right_inj l₁).1 h, rfl⟩
  · rintro (h | ⟨t, ht, rfl⟩)
    · exact h.trans (List.prefix_append l₁ l₂)
    · exact (List.prefix_append_right_inj l₁).2 ht

/-- **A sequence is cut off** in its first part, or after it. -/
theorem cutOff_bind {x : Prog σ ω ε α} {f : α → Prog σ ω ε β} {s : σ} {t : List ω} :
    CutOff (x >>= f) s t ↔ CutOff x s t ∨
      ∃ a t₁ s' t₂, Runs x s a t₁ s' ∧ CutOff (f a) s' t₂ ∧ t = t₁ ++ t₂ := by
  change t <+: (Prog.bind x f s).trace ↔ _
  unfold CutOff Runs Prog.bind
  rcases x s with ⟨e | a, s', t₁⟩
  · simp
  · rw [prefix_of_append]
    refine or_congr_right ?_
    constructor
    · rintro ⟨t₂, ht, rfl⟩
      exact ⟨a, t₁, s', t₂, rfl, ht, rfl⟩
    · rintro ⟨_, _, _, t₂, hx, ht, rfl⟩
      cases hx
      exact ⟨t₂, ht, rfl⟩

theorem Runs.cutOff_iff {x : Prog σ ω ε α} {s s' : σ} {a : α} {t t' : List ω}
    (h : Runs x s a t s') :
    CutOff x s t' ↔ t' <+: t := by
  unfold Runs at h
  rw [CutOff, h]

@[simp] theorem cutOff_fail {e : ε} {s : σ} {t : List ω} :
    CutOff (fail e : Prog σ ω ε α) s t ↔ t = [] := List.prefix_nil

/-! ### The judgement -/

/-- Wherever `x` is cut off, the durable state satisfies `C`; a fault satisfies `E`; and when `x`
returns, the writes have made the durable state what it is, and value and state satisfy `Q`. -/
structure CrashSafe (durable : σ → δ) (act : δ → ω → δ) (C : δ → Prop) (E : ε → Prop)
    (x : Prog σ ω ε α) (s : σ) (Q : α → σ → Prop) : Prop where
  crash : ∀ t, CutOff x s t → C (t.foldl act (durable s))
  fault : ∀ e, Fails x s e → E e
  result : ∀ a t s', Runs x s a t s' → durable s' = t.foldl act (durable s) ∧ Q a s'

namespace CrashSafe

variable {durable : σ → δ} {act : δ → ω → δ} {C C' : δ → Prop} {E E' : ε → Prop} {s : σ}
  {x : Prog σ ω ε α} {f : α → Prog σ ω ε β} {Q R : α → σ → Prop} {Q' : β → σ → Prop}

theorem mono (h : CrashSafe durable act C E x s Q) (hC : ∀ d, C d → C' d) (hE : ∀ e, E e → E' e)
    (hQ : ∀ a s', Q a s' → R a s') : CrashSafe durable act C' E' x s R where
  crash := fun t ht => hC _ (h.crash t ht)
  fault := fun e he => hE e (h.fault e he)
  result := fun a t s' hr => ⟨(h.result a t s' hr).1, hQ a s' (h.result a t s' hr).2⟩

theorem post (h : CrashSafe durable act C E x s Q) (hQ : ∀ a s', Q a s' → R a s') :
    CrashSafe durable act C E x s R := h.mono (fun _ => id) (fun _ => id) hQ

/-- A program that cannot stop by itself returns. -/
theorem returns (h : CrashSafe durable act C E x s Q) (hE : ∀ e, ¬ E e) :
    ∃ a s', Returns x s a s' ∧ Q a s' := by
  rcases runs_or_fails x s with ⟨a, t, s', hr⟩ | ⟨e, he⟩
  · exact ⟨a, s', hr.returns, (h.result a t s' hr).2⟩
  · exact absurd (h.fault e he) (hE e)

/-- Programs without accesses. -/
theorem silent {s' : σ} {a : α} (hx : Runs x s a [] s') (hC : C (durable s))
    (hs : durable s' = durable s) (hQ : Q a s') : CrashSafe durable act C E x s Q where
  crash := by
    intro t ht
    rw [hx.cutOff_iff, List.prefix_nil] at ht
    rwa [ht]
  fault := fun e he => absurd he hx.returns.not_fails
  result := by
    intro a' t s'' hr
    obtain ⟨hval, hstate, htrace⟩ := Outcome.mk.inj (hx.symm.trans hr)
    cases hval
    rw [← hstate, ← htrace]
    exact ⟨hs, hQ⟩

theorem pure {a : α} (hC : C (durable s)) (hQ : Q a s) :
    CrashSafe durable act C E (pure a : Prog σ ω ε α) s Q :=
  silent (runs_pure.2 ⟨rfl, rfl, rfl⟩) hC rfl hQ

theorem modify {f : σ → σ} {Q : Unit → σ → Prop} (hC : C (durable s))
    (hs : durable (f s) = durable s)
    (hQ : Q () (f s)) : CrashSafe durable act C E (modify f : Prog σ ω ε Unit) s Q :=
  silent (modify_runs f s) hC hs hQ

theorem fail {e : ε} (hC : C (durable s)) (he : E e) :
    CrashSafe durable act C E (fail e : Prog σ ω ε α) s Q where
  crash := by
    intro t ht
    rw [cutOff_fail] at ht
    rwa [ht]
  fault := by
    intro e' he'
    obtain rfl := fails_fail.1 he'
    exact he
  result := fun a t s' hr => absurd hr not_runs_fail

/-- **Sequences.** -/
theorem bind (hx : CrashSafe durable act C E x s R)
    (hf : ∀ a s', R a s' → CrashSafe durable act C E (f a) s' Q') :
    CrashSafe durable act C E (x >>= f) s Q' where
  crash := by
    intro t ht
    rcases cutOff_bind.1 ht with h | ⟨a, t₁, s', t₂, hr, h, rfl⟩
    · exact hx.crash t h
    · obtain ⟨hd, hR⟩ := hx.result a t₁ s' hr
      rw [List.foldl_append, ← hd]
      exact (hf a s' hR).crash t₂ h
  fault := by
    intro e he
    rcases fails_bind.1 he with h | ⟨a, s', hr, h⟩
    · exact hx.fault e h
    · obtain ⟨t, hrun⟩ := hr.runs
      exact (hf a s' (hx.result a t s' hrun).2).fault e h
  result := by
    intro b t s'' hr
    obtain ⟨a, t₁, s', t₂, hrun, hrun', rfl⟩ := runs_bind.1 hr
    obtain ⟨hd, hR⟩ := hx.result a t₁ s' hrun
    obtain ⟨hd', hQ⟩ := (hf a s' hR).result b t₂ s'' hrun'
    exact ⟨by rw [List.foldl_append, ← hd, hd'], hQ⟩

theorem get_bind {f : σ → Prog σ ω ε β} (hC : C (durable s))
    (hf : CrashSafe durable act C E (f s) s Q') :
    CrashSafe durable act C E (get >>= f) s Q' := by
  refine bind (R := fun a s' => a = s ∧ s' = s) (silent (get_runs s) hC rfl ⟨rfl, rfl⟩) ?_
  rintro a s' ⟨rfl, rfl⟩
  exact hf

/-- **A write**: the program may be cut off before and after it. -/
theorem store {w : ω} {f : σ → σ} {Q : Unit → σ → Prop} (hC : C (durable s))
    (hC' : C (act (durable s) w)) (hs : durable (f s) = act (durable s) w) (hQ : Q () (f s)) :
    CrashSafe durable act C E (do emit w; Prog.modify f : Prog σ ω ε Unit) s Q := by
  have hrun : Runs (do emit w; Prog.modify f : Prog σ ω ε Unit) s () [w] (f s) :=
    runs_bind.2 ⟨(), [w], s, [], emit_runs w s, modify_runs f s, rfl⟩
  refine ⟨fun t ht => ?_, fun e he => absurd he hrun.returns.not_fails, fun a t s' hr => ?_⟩
  · rw [hrun.cutOff_iff] at ht
    cases t with
    | nil => exact hC
    | cons v t =>
      obtain ⟨rfl, hnil⟩ := List.cons_prefix_cons.1 ht
      obtain rfl := List.prefix_nil.1 hnil
      exact hC'
  · obtain ⟨-, hstate, htrace⟩ := Outcome.mk.inj (hrun.symm.trans hr)
    rw [← hstate, ← htrace]
    exact ⟨hs, hQ⟩

/-- **Loops**: an invariant carried from each index to the next. -/
theorem forRange {body : ℕ → Prog σ ω ε Unit} (I : ℕ → σ → Prop) {i k : ℕ}
    (hC : ∀ j s, I j s → C (durable s))
    (hbody : ∀ j s, i ≤ j → j < i + k → I j s →
      CrashSafe durable act C E (body j) s fun _ s' => I (j + 1) s')
    (h : I i s) : CrashSafe durable act C E (forRange body i k) s fun _ s' => I (i + k) s' := by
  induction k generalizing i s with
  | zero => exact pure (hC i s h) h
  | succ k ih =>
    refine bind (hbody i s (Nat.le_refl i) (by omega) h) fun _ s' h' => ?_
    rw [show i + (k + 1) = i + 1 + k by omega]
    exact ih (fun j s hj hk => hbody j s (by omega) (by omega)) h'

end CrashSafe

end Prog
