/-
**Runs of a machine that is driven by calls.**

A machine with a program for each call it accepts is run by making calls one after the other.
`Reach step ok s₀ h s` says that some such run leads from `s₀` to `s` and that `h` is its history,
the latest call first.  Every call of the run has to return, and to be allowed by `ok`, which may
look at the history so far and at the state the call is made in; so `ok` serves to restrict runs to
those one wants to speak about.

* `Reach` — reachability with a history;
* `Reach.inv` — **the invariant rule**: what holds at the start and is kept by every allowed call
  that returns holds in every state reached;
* `Reach.Allows`, `Reach.of_allows` — making the calls of a list, which computes a run of a concrete
  machine;
* `LogReach` — reachability with a history that holds the replies as well, and its invariant rule
  `LogReach.inv`;
* `Record`, `Run` — the same with the states in between, for statements about what happens between
  two calls; `Run.steps` computes them for a concrete machine.
-/

import RaidSystem.Prog

set_option autoImplicit false

open Prog

/-- The states that runs of allowed calls lead to, each with the history of the run. -/
inductive Reach {κ ρ σ ω ε : Type} (step : κ → Prog σ ω ε ρ) (ok : List κ → σ → κ → Prop)
    (s₀ : σ) : List κ → σ → Prop
  | start : Reach step ok s₀ [] s₀
  | next {h : List κ} {s s' : σ} {c : κ} {r : ρ} : Reach step ok s₀ h s → ok h s c →
      Returns (step c) s r s' → Reach step ok s₀ (c :: h) s'

namespace Reach

variable {κ ρ σ ω ε : Type} {step : κ → Prog σ ω ε ρ} {ok : List κ → σ → κ → Prop} {s₀ s : σ}
  {h : List κ}

/-- **The invariant rule.** -/
theorem inv (I : List κ → σ → Prop) (h₀ : I [] s₀)
    (hstep : ∀ h s c r s', I h s → ok h s c → Returns (step c) s r s' → I (c :: h) s')
    (hr : Reach step ok s₀ h s) : I h s := by
  induction hr with
  | start => exact h₀
  | next _ hok hret ih => exact hstep _ _ _ _ _ ih hok hret

/-- The state after the calls of a list, oldest first. -/
def after (step : κ → Prog σ ω ε ρ) : List κ → σ → σ
  | [], s => s
  | c :: cs, s => after step cs (step c s).state

/-- The calls of a list return, and each is allowed in the state that those before it lead to. -/
def Allows (step : κ → Prog σ ω ε ρ) (ok : List κ → σ → κ → Prop) : List κ → List κ → σ → Prop
  | _, [], _ => True
  | h, c :: cs, s => (ok h s c ∧ (step c s).val.toBool = true) ∧
      Allows step ok (c :: h) cs (step c s).state

instance [hdec : ∀ h s c, Decidable (ok h s c)] : ∀ h cs s, Decidable (Allows step ok h cs s)
  | _, [], _ => inferInstanceAs (Decidable True)
  | h, c :: cs, s =>
    haveI : Decidable (Allows step ok (c :: h) cs (step c s).state) :=
      instDecidableAllows (c :: h) cs (step c s).state
    inferInstanceAs (Decidable (_ ∧ _))

theorem returns_of_toBool {x : Prog σ ω ε ρ} (h : (x s).val.toBool = true) :
    ∃ r, Returns x s r (x s).state := by
  cases hval : (x s).val with
  | error e =>
    rw [hval] at h
    cases h
  | ok r => exact ⟨r, hval, rfl⟩

/-- **A run by evaluation.** -/
theorem of_allows {cs : List κ} (hr : Reach step ok s₀ h s) (hok : Allows step ok h cs s) :
    Reach step ok s₀ (cs.reverse ++ h) (after step cs s) := by
  induction cs generalizing h s with
  | nil => exact hr
  | cons c cs ih =>
    obtain ⟨r, hret⟩ := returns_of_toBool hok.1.2
    rw [List.reverse_cons, List.append_assoc]
    exact ih (hr.next hok.1.1 hret) hok.2

theorem of_allows_start {cs : List κ} (hok : Allows step ok [] cs s₀) :
    Reach step ok s₀ cs.reverse (after step cs s₀) := by
  have h := of_allows .start hok
  rwa [List.append_nil] at h

end Reach

/-- The states that runs of allowed calls lead to, each with the calls and replies of the run, the
latest first. -/
inductive LogReach {κ ρ σ ω ε : Type} (step : κ → Prog σ ω ε ρ) (ok : σ → κ → Prop) (s₀ : σ) :
    List (κ × ρ) → σ → Prop
  | start : LogReach step ok s₀ [] s₀
  | next {l : List (κ × ρ)} {s s' : σ} {c : κ} {r : ρ} : LogReach step ok s₀ l s → ok s c →
      Returns (step c) s r s' → LogReach step ok s₀ ((c, r) :: l) s'

namespace LogReach

variable {κ ρ σ ω ε : Type} {step : κ → Prog σ ω ε ρ} {ok : σ → κ → Prop} {s₀ s : σ}
  {l : List (κ × ρ)}

theorem inv (I : List (κ × ρ) → σ → Prop) (h₀ : I [] s₀)
    (hstep : ∀ l s c r s', I l s → ok s c → Returns (step c) s r s' → I ((c, r) :: l) s')
    (hr : LogReach step ok s₀ l s) : I l s := by
  induction hr with
  | start => exact h₀
  | next _ hok hret ih => exact hstep _ _ _ _ _ ih hok hret

/-- A run whose replies were not recorded. -/
theorem of_reach {h : List κ} (hr : Reach step (fun _ s c => ok s c) s₀ h s) :
    ∃ l : List (κ × ρ), LogReach step ok s₀ l s := by
  induction hr with
  | start => exact ⟨[], .start⟩
  | next _ hok hret ih =>
    obtain ⟨l, hl⟩ := ih
    exact ⟨_, hl.next hok hret⟩

end LogReach

/-- One step of a run: the call, its reply, and the states before and after. -/
structure Record (κ ρ σ : Type) where
  before : σ
  call : κ
  reply : ρ
  after : σ

/-- The runs of allowed calls, each with its steps, the latest first. -/
inductive Run {κ ρ σ ω ε : Type} (step : κ → Prog σ ω ε ρ) (ok : σ → κ → Prop) (s₀ : σ) :
    List (Record κ ρ σ) → σ → Prop
  | start : Run step ok s₀ [] s₀
  | next {l : List (Record κ ρ σ)} {s s' : σ} {c : κ} {r : ρ} : Run step ok s₀ l s → ok s c →
      Returns (step c) s r s' →
      Run step ok s₀ ({ before := s, call := c, reply := r, after := s' } :: l) s'

namespace Run

variable {κ ρ σ ω ε : Type} {step : κ → Prog σ ω ε ρ} {ok : σ → κ → Prop} {s₀ s : σ}
  {l : List (Record κ ρ σ)}

theorem inv (I : List (Record κ ρ σ) → σ → Prop) (h₀ : I [] s₀)
    (hstep : ∀ l s c r s', I l s → ok s c → Returns (step c) s r s' →
      I ({ before := s, call := c, reply := r, after := s' } :: l) s')
    (hr : Run step ok s₀ l s) : I l s := by
  induction hr with
  | start => exact h₀
  | next _ hok hret ih => exact hstep _ _ _ _ _ ih hok hret

/-- The steps of the calls of a list, oldest first, up to the first call that does not return. -/
def steps (step : κ → Prog σ ω ε ρ) : List κ → σ → List (Record κ ρ σ)
  | [], _ => []
  | c :: cs, s =>
    match (step c s).val with
    | .ok r => ⟨s, c, r, (step c s).state⟩ :: steps step cs (step c s).state
    | .error _ => []

theorem of_allows {h cs : List κ} (hr : Run step ok s₀ l s)
    (hok : Reach.Allows step (fun _ => ok) h cs s) :
    Run step ok s₀ ((steps step cs s).reverse ++ l) (Reach.after step cs s) := by
  induction cs generalizing h l s with
  | nil => exact hr
  | cons c cs ih =>
    obtain ⟨r, hret⟩ := Reach.returns_of_toBool hok.1.2
    rw [steps, hret.1, List.reverse_cons, List.append_assoc]
    exact ih (hr.next hok.1.1 hret) hok.2

theorem of_allows_start {cs : List κ} (hok : Reach.Allows step (fun _ => ok) [] cs s₀) :
    Run step ok s₀ (steps step cs s₀).reverse (Reach.after step cs s₀) := by
  have hrun := of_allows .start hok
  rwa [List.append_nil] at hrun

/-- The states in between are reachable. -/
theorem reach_before (hr : Run step ok s₀ l s) :
    (∃ h, Reach step (fun _ => ok) s₀ h s) ∧
      ∀ t ∈ l, ∃ h, Reach step (fun _ => ok) s₀ h t.before := by
  induction hr with
  | start => exact ⟨⟨[], .start⟩, nofun⟩
  | next _ hok hret ih =>
    obtain ⟨⟨h, hr⟩, hbefore⟩ := ih
    exact ⟨⟨_, hr.next hok hret⟩, List.forall_mem_cons.2 ⟨⟨h, hr⟩, hbefore⟩⟩

end Run
