/-
**Programs seen through a part of their traces.**

One and the same routine may be described with more accesses or with fewer.  `Prog.filterTrace f x`
is the program `x` with its accesses renamed by `f`, and those that `f` gives no name forgotten.
What a description with few accesses was proved to do is then also what the one with more accesses
does.  `Prog.grouped x` goes the other way and counts a run of `x` as one access, which consists of
those that `x` performed.

* `Prog.filterTrace` — the program with fewer accesses;
* `Prog.filterTrace_bind` and the lemmas for the other constructs — it follows the program, so that
  two descriptions of a routine are compared part by part;
* `Prog.ends_filterTrace` — **the two descriptions end alike**;
* `Prog.grouped` — a run as one access;
* `Prog.Quiet` — programs without accesses, with a rule for every construct.
-/

import RaidSystem.Triples

set_option autoImplicit false

namespace Prog

variable {σ ω ω' ε α β : Type} {f : ω → Option ω'} {x y : Prog σ ω ε α} {s s' : σ} {a : α}

/-- The program `x`, of whose accesses only those are seen that `f` gives a name. -/
def filterTrace (f : ω → Option ω') (x : Prog σ ω ε α) : Prog σ ω' ε α := fun s =>
  ⟨(x s).val, (x s).state, (x s).trace.filterMap f⟩

/-- A part without effect, such as an access that was forgotten, may be left out. -/
theorem bind_of_pure {k : α → Prog σ ω ε β} : (pure a : Prog σ ω ε α) >>= k = k a := rfl

@[simp] theorem filterTrace_pure : filterTrace f (pure a : Prog σ ω ε α) = pure a := rfl

@[simp] theorem filterTrace_get : filterTrace f (get : Prog σ ω ε σ) = get := rfl

@[simp] theorem filterTrace_modify {g : σ → σ} :
    filterTrace f (modify g : Prog σ ω ε Unit) = modify g := rfl

@[simp] theorem filterTrace_fail {e : ε} : filterTrace f (fail e : Prog σ ω ε α) = fail e := rfl

theorem filterTrace_emit_none {w : ω} (h : f w = none) :
    filterTrace f (emit w : Prog σ ω ε Unit) = pure () := by
  funext s
  change (⟨.ok (), s, [w].filterMap f⟩ : Outcome σ ω' ε Unit) = ⟨.ok (), s, []⟩
  rw [List.filterMap_cons_none h, List.filterMap_nil]

@[simp] theorem filterTrace_bind {k : α → Prog σ ω ε β} :
    filterTrace f (x >>= k) = filterTrace f x >>= fun a => filterTrace f (k a) := by
  funext s
  change filterTrace f (Prog.bind x k) s =
    Prog.bind (filterTrace f x) (fun a => filterTrace f (k a)) s
  simp only [filterTrace, Prog.bind]
  rcases x s with ⟨e | a, s', t⟩
  · rfl
  · simp only [List.filterMap_append]

@[simp] theorem filterTrace_ite {c : Prop} [Decidable c] :
    filterTrace f (if c then x else y) = if c then filterTrace f x else filterTrace f y := by
  by_cases h : c <;> simp only [h, if_true, if_false]

/-- **The two descriptions end alike.** -/
theorem ends_filterTrace {E : ε → Prop} {Q : α → List ω' → σ → Prop} :
    Ends E (filterTrace f x) s Q ↔ Ends E x s fun a t s' => Q a (t.filterMap f) s' := by
  unfold Ends filterTrace
  rcases x s with ⟨e | a, s', t⟩ <;> rfl

/-- The program `x`, of which a run is one access. -/
def grouped (x : Prog σ ω ε α) : Prog σ (List ω) ε α :=
  fun s => ⟨(x s).val, (x s).state, [(x s).trace]⟩

@[simp] theorem ends_grouped {E : ε → Prop} {Q : α → List (List ω) → σ → Prop} :
    Ends E (grouped x) s Q ↔ Ends E x s fun a t s' => Q a [t] s' := by
  unfold Ends grouped
  rcases x s with ⟨e | a, s', t⟩ <;> rfl

/-- The program `x` performs no access, whether it returns or not. -/
def Quiet (x : Prog σ ω ε α) : Prop := ∀ s, (x s).trace = []

theorem quiet_pure : Quiet (pure a : Prog σ ω ε α) := fun _ => rfl

theorem quiet_get : Quiet (get : Prog σ ω ε σ) := fun _ => rfl

theorem quiet_modify {g : σ → σ} : Quiet (modify g : Prog σ ω ε Unit) := fun _ => rfl

theorem quiet_fail {e : ε} : Quiet (fail e : Prog σ ω ε α) := fun _ => rfl

theorem quiet_filterTrace : Quiet (filterTrace (fun _ => none : ω → Option ω') x) := fun _ =>
  List.filterMap_eq_nil_iff.2 fun _ _ => rfl

theorem Quiet.bind {k : α → Prog σ ω ε β} (hx : Quiet x) (hk : ∀ a, Quiet (k a)) :
    Quiet (x >>= k) := by
  intro s
  have hxs := hx s
  change (Prog.bind x k s).trace = []
  unfold Prog.bind
  rcases hrun : x s with ⟨e | a, s', t⟩
  · rwa [hrun] at hxs
  · rw [hrun] at hxs
    change t ++ (k a s').trace = []
    rw [show t = [] from hxs, hk a s', List.nil_append]

theorem Quiet.ite {c : Prop} [Decidable c] (hx : Quiet x) (hy : Quiet y) :
    Quiet (if c then x else y) := by
  by_cases h : c
  · rwa [if_pos h]
  · rwa [if_neg h]

theorem Quiet.within {τ ε' : Type} {part : τ → σ} {put : τ → σ → τ} {wrap : ε → ε'} (hx : Quiet x) :
    Quiet (within part put wrap x) := fun t => hx (part t)

theorem Quiet.forRange {body : ℕ → Prog σ ω ε Unit} (hbody : ∀ j, Quiet (body j)) (i k : ℕ) :
    Quiet (forRange body i k) := by
  induction k generalizing i with
  | zero =>
    rw [forRange_zero]
    exact quiet_pure
  | succ k ih =>
    rw [forRange_succ]
    exact (hbody i).bind fun _ => ih (i + 1)

end Prog
