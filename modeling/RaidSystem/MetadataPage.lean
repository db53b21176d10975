/-
**The page of the metadata.**

The metadata live in a page from `kalloc`.  Three functions of the array take one, `fetch` (for
`init_raid` and `info_raid`) and `destroy_raid`, all under the test that `raid_metadata` is null or
its array not initialised, and all by overwriting the pointer.  Only `destroy_raid` gives a page
back, and only that of an array.  So a page whose array is not initialised is lost as soon as one of
the three is called again.

The allocator is a set of free pages here.  `pageCalls` lists the calls to it that a call of the
array makes; the counter of `Machine.pages`, which the model of the functions keeps, agrees with the
pages taken in every run (`pool_agrees`).

Main definitions:

* `Pool` — the allocator, the pages the array has taken, and the page `raid_metadata` points to;
* `pageCalls` — the calls to the allocator that a call makes;
* `PageRun` — runs of the machine and the allocator;
* `HoldsOnePage` — the array never holds more than the page that `raid_metadata` points to.

Main results:

* `one_page` — **the array holds at most one page**, in runs where the three calls come only when
  `raid_metadata` is null or its array initialised;
* `info_leaks` — two questions for the size of an array that does not exist lose a page.
-/

import RaidSystem.MetadataSteps
import Mathlib.Data.Finset.Card

set_option autoImplicit false

namespace RaidSystem

open Prog

/-! ### The allocator -/

/-- A call to the allocator. -/
inductive PageCall
  | kalloc
  | kfree
deriving DecidableEq

/-- The free pages, the pages that the array has taken and not given back, and the page that
`raid_metadata` points to. -/
structure Pool where
  free : Finset ℕ
  taken : Finset ℕ
  pointer : Option ℕ

/-- `kalloc` hands out some free page, and the pointer is set to it; `kfree` takes the page back
that the pointer names, and the pointer is cleared. -/
inductive Pool.Step : PageCall → Pool → Pool → Prop
  | kalloc {f : Pool} (p : ℕ) (h : p ∈ f.free) :
      Step .kalloc f { free := f.free.erase p, taken := insert p f.taken, pointer := some p }
  | kfree {f : Pool} (p : ℕ) (h : f.pointer = some p) :
      Step .kfree f { free := insert p f.free, taken := f.taken.erase p, pointer := none }

inductive Pool.Steps : List PageCall → Pool → Pool → Prop
  | nil (f : Pool) : Steps [] f f
  | cons {e : PageCall} {es : List PageCall} {f g h : Pool} : Step e f g → Steps es g h →
      Steps (e :: es) f h

/-! ### The calls of the array -/

/-- `raid_metadata == 0 || !raid_metadata->raid_initialized`: a page is taken. -/
def loadCalls (s : Machine) : List PageCall := if s.ready then [] else [.kalloc]

/-- The calls to the allocator that a call of the array makes. -/
def pageCalls (s : Machine) : Call → List PageCall
  | .initRaid _ => loadCalls s
  | .infoRaid => loadCalls s
  | .destroyRaid =>
    loadCalls s ++ if s.ready ∨ (s.super 1).raidInitialized = true then [.kfree] else []
  | _ => []

/-- The runs of allowed calls of the array, together with what they do to the allocator. -/
inductive PageRun (cfg : Config) (ok : Machine → Call → Prop) (s₀ : Machine) (f₀ : Pool) :
    Machine → Pool → Prop
  | start : PageRun cfg ok s₀ f₀ s₀ f₀
  | next {s s' : Machine} {f f' : Pool} {c : Call} {r : Reply} : PageRun cfg ok s₀ f₀ s f →
      c.isSystemCall = true → ok s c → Returns (exec cfg c) s r s' → f.Steps (pageCalls s c) f' →
      PageRun cfg ok s₀ f₀ s' f'

/-- A machine that has just booted. -/
structure Machine.Booted (s : Machine) : Prop where
  raidMetadata : s.raidMetadata = none
  pages : s.pages = 0

/-- The allocator before the array has taken a page. -/
def Pool.initial (pages : Finset ℕ) : Pool := { free := pages, taken := ∅, pointer := none }

/-- In every run of allowed calls from boot the array holds at most the page that `raid_metadata`
points to, all other pages are free, and no allowed call finds the allocator empty. -/
def HoldsOnePage (cfg : Config) (ok : Machine → Call → Prop) : Prop :=
  ∀ s₀ : Machine, s₀.Booted → ∀ pages : Finset ℕ, pages.Nonempty → ∀ s f,
    PageRun cfg ok s₀ (.initial pages) s f →
      (∀ p ∈ f.taken, f.pointer = some p) ∧ f.free ∪ f.taken = pages ∧ s.pages ≤ 1 ∧
      ∀ c, ok s c → ∃ f', f.Steps (pageCalls s c) f'

/-- The calls that take a page come only when `raid_metadata` is null or its array initialised. -/
def LoadsClear (s : Machine) : Call → Prop
  | .initRaid _ => s.raidMetadata = none ∨ s.ready = true
  | .infoRaid => s.raidMetadata = none ∨ s.ready = true
  | .destroyRaid => s.raidMetadata = none ∨ s.ready = true
  | _ => True

variable {cfg : Config} {s s' : Machine} {f f' : Pool} {c : Call} {r : Reply} {m : Raid}

/-! ### The counter of the machine -/

/-- What a call to the allocator does to the number of pages, and whether the pointer is set after
it. -/
def countPage : ℕ × Bool → PageCall → ℕ × Bool
  | (n, _), .kalloc => (n + 1, true)
  | (n, _), .kfree => (n - 1, false)

/-- The number of pages of the machine, and whether it has metadata. -/
def Machine.holding (s : Machine) : ℕ × Bool := (s.pages, s.raidMetadata.isSome)

theorem accessFrame_holding : AccessFrame Machine.holding where
  disk _ _ _ _ := rfl
  page _ _ := rfl
  cache s m k q p hm := by simp [Machine.holding, hm]

theorem roleFrame_holding : RoleFrame Machine.holding := by
  intro s m data copy r c p hm
  simp [Machine.holding, hm]

theorem isSome_of_ready (hs : s.ready = true) : s.raidMetadata.isSome = true := by
  unfold Machine.ready at hs
  cases hm : s.raidMetadata with
  | none => simp [hm] at hs
  | some m => rfl

theorem fetched_holding (cfg : Config) (s : Machine) :
    (fetched cfg s).holding = (loadCalls s).foldl countPage s.holding := by
  cases hs : s.ready with
  | true => simp [fetched, loadCalls, hs]
  | false => simp [fetched, loadCalls, hs, Machine.holding, countPage]

/-- Saving the metadata does not change the pages. -/
theorem Saved.holding {live : ℕ → Prop} (h : Saved cfg live m s s')
    (hs : s.raidMetadata.isSome = true) :
    s'.holding = s.holding := by
  rw [Machine.holding, Machine.holding, h.pages, h.raidMetadata, hs]
  rfl

/-- The end of a failure or a repair does not change the pages. -/
theorem holding_of_roles {roles : Kernel Unit} {s₁ : Machine}
    (hroles : Preserves Machine.holding roles) (hm : s.raidMetadata.isSome = true)
    (h₁ : Returns roles (s.withMeta m) () s₁)
    (h₂ : Returns (writeback cfg) s₁ () s') : s'.holding = s.holding := by
  have hkeep : s₁.holding = s.holding := by
    rw [hroles _ _ _ h₁, Machine.holding, Machine.holding, hm]
    rfl
  have hsome : s₁.raidMetadata.isSome = true := (Prod.mk.inj hkeep).2.trans hm
  obtain ⟨m₁, hm₁⟩ := Option.isSome_iff_exists.1 hsome
  exact ((saved_of_writeback hm₁ h₂).holding hsome).trans hkeep

/-- **What a call does to the counter and the pointer of the machine is what the calls to the
allocator do to them.** -/
theorem holding_exec (hn : 1 ≤ cfg.disks) (hc : c.isSystemCall = true)
    (h : Returns (exec cfg c) s r s') :
    s'.holding = (pageCalls s c).foldl countPage s.holding := by
  cases c with
  | initRaid x =>
    obtain ⟨m, hm, hsaved⟩ := exec_initRaid_cases hn h
    rw [hsaved.holding (by rw [hm]; rfl), fetched_holding cfg]
    rfl
  | readRaid x data =>
    obtain ⟨_, hread, -⟩ := returns_exec_readRaid.1 h
    exact accessFrame_holding.accessRaid _ _ _ hread
  | writeRaid x data =>
    obtain ⟨_, hwrite, -⟩ := returns_exec_writeRaid.1 h
    exact accessFrame_holding.accessRaid _ _ _ hwrite
  | infoRaid =>
    obtain ⟨_, hinfo, -⟩ := returns_exec_infoRaid.1 h
    rw [infoRaid_state hn hinfo, fetched_holding cfg]
    rfl
  | diskFailRaid x =>
    obtain ⟨_, hfail, -⟩ := returns_exec_diskFailRaid.1 h
    by_cases haddr : ∃ m d, Addresses cfg s x m d
    · obtain ⟨m, d, ha⟩ := haddr
      obtain ⟨-, ⟨-, rfl⟩ | ⟨-, s₁, h₁, h₂⟩⟩ := (returns_diskFailRaid ha).1 hfail
      · rfl
      · exact holding_of_roles roleFrame_holding.failRoles (by rw [ha.1]; rfl) h₁ h₂
    · obtain ⟨-, rfl⟩ := (diskFailRaid_refused haddr).1 hfail
      rfl
  | diskRepairedRaid x =>
    obtain ⟨_, hrep, -⟩ := returns_exec_diskRepairedRaid.1 h
    by_cases haddr : ∃ m d, Addresses cfg s x m d
    · obtain ⟨m, d, ha⟩ := haddr
      obtain ⟨-, ⟨-, rfl⟩ | ⟨-, s₁, h₁, h₂⟩⟩ := (returns_diskRepairedRaid ha).1 hrep
      · rfl
      · exact holding_of_roles roleFrame_holding.repairRoles (by rw [ha.1]; rfl) h₁ h₂
    · obtain ⟨-, rfl⟩ := (diskRepairedRaid_refused haddr).1 hrep
      rfl
  | destroyRaid =>
    obtain ⟨_, hdestroy, -⟩ := returns_exec_destroyRaid.1 h
    obtain ⟨s₁, hr, -, hcases⟩ := destroyRaid_returns hn s
    obtain ⟨-, rfl⟩ := hdestroy.unique hr
    rcases hcases with ⟨harray, hpages, hm, -⟩ | ⟨hready, hinit, hpages, hm, -⟩
    · rw [pageCalls, if_pos harray, Machine.holding, hpages, hm, loadCalls]
      split <;> rfl
    · simp [pageCalls, loadCalls, hready, hinit, Machine.holding, hpages, hm, countPage]
  | _ => cases hc

/-! ### The allocator along a run -/

/-- The numbers of the allocator. -/
def Pool.holding (f : Pool) : ℕ × Bool := (f.taken.card, f.pointer.isSome)

/-- The pages taken are not free, and the pointer names one of them. -/
structure Pool.Sound (f : Pool) : Prop where
  mem : ∀ p, f.pointer = some p → p ∈ f.taken
  disjoint : Disjoint f.free f.taken

theorem Pool.Step.sound {e : PageCall} (h : Pool.Step e f f') (hf : f.Sound) :
    f'.Sound ∧ f'.holding = countPage f.holding e := by
  cases h with
  | kalloc p hp =>
    have hnew : p ∉ f.taken := Finset.disjoint_left.1 hf.disjoint hp
    refine ⟨⟨?_, ?_⟩, ?_⟩
    · rintro q ⟨⟩
      exact Finset.mem_insert_self p f.taken
    · rw [Finset.disjoint_insert_right]
      exact ⟨Finset.notMem_erase p f.free, hf.disjoint.mono_left (Finset.erase_subset p f.free)⟩
    · simp [Pool.holding, countPage, Finset.card_insert_of_notMem hnew]
  | kfree p hp =>
    refine ⟨⟨nofun, ?_⟩, ?_⟩
    · rw [Finset.disjoint_insert_left]
      exact ⟨Finset.notMem_erase p f.taken, hf.disjoint.mono_right (Finset.erase_subset p f.taken)⟩
    · simp [Pool.holding, countPage, Finset.card_erase_of_mem (hf.mem p hp)]

theorem Pool.Steps.sound {es : List PageCall} (h : Pool.Steps es f f') (hf : f.Sound) :
    f'.Sound ∧ f'.holding = es.foldl countPage f.holding := by
  induction h with
  | nil f => exact ⟨hf, rfl⟩
  | cons hstep _ ih =>
    obtain ⟨hg, hcount⟩ := hstep.sound hf
    obtain ⟨hh, hrest⟩ := ih hg
    exact ⟨hh, by rw [hrest, hcount]; rfl⟩

theorem Pool.sound_initial (pages : Finset ℕ) : (Pool.initial pages).Sound :=
  ⟨nofun, Finset.disjoint_empty_right pages⟩

/-- **The counter of the machine is the number of pages taken**, in every run. -/
theorem pool_agrees {ok : Machine → Call → Prop} {s₀ : Machine} {pages : Finset ℕ}
    (hn : 1 ≤ cfg.disks) (hs₀ : s₀.Booted) (h : PageRun cfg ok s₀ (.initial pages) s f) :
    f.Sound ∧ f.holding = s.holding := by
  induction h with
  | start =>
    refine ⟨Pool.sound_initial pages, ?_⟩
    rw [Machine.holding, hs₀.pages, hs₀.raidMetadata]
    rfl
  | next _ hc _ hret hsteps ih =>
    obtain ⟨hsound, hcount⟩ := hsteps.sound ih.1
    refine ⟨hsound, ?_⟩
    rw [hcount, ih.2, holding_exec hn hc hret]

/-! ### At most one page -/

/-- All pages are free and the pointer is null, or the page it names is the one that is not free. -/
inductive Pool.OnePage (pages : Finset ℕ) : Pool → Prop
  | allFree : OnePage pages (.initial pages)
  | oneTaken (p : ℕ) (h : p ∈ pages) :
      OnePage pages { free := pages.erase p, taken := {p}, pointer := some p }

namespace Pool.OnePage

variable {pages : Finset ℕ}

section

variable (hf : f.OnePage pages)

include hf

theorem taken_eq : ∀ p ∈ f.taken, f.pointer = some p := by
  intro p hp
  cases hf with
  | allFree => cases hp
  | oneTaken q hq => rw [Finset.mem_singleton.1 hp]

theorem union_eq : f.free ∪ f.taken = pages := by
  cases hf with
  | allFree => exact Finset.union_empty pages
  | oneTaken p hp => rw [Finset.union_comm, ← Finset.insert_eq, Finset.insert_erase hp]

theorem card_le : f.taken.card ≤ 1 := by
  cases hf with
  | allFree => exact Nat.zero_le 1
  | oneTaken p hp => exact le_rfl

theorem eq_initial (h : f.pointer = none) : f = .initial pages := by
  cases hf with
  | allFree => rfl
  | oneTaken p hp => cases h

/-- A page is given back. -/
theorem kfree (h : Pool.Step .kfree f f') : f'.OnePage pages := by
  cases h with
  | kfree p hp =>
    cases hf with
    | allFree => cases hp
    | oneTaken q hq =>
      obtain rfl : q = p := Option.some_inj.1 hp
      rw [Finset.insert_erase hq, Finset.erase_singleton]
      exact .allFree

/-- A page is taken while the pointer is null. -/
theorem kalloc (hnull : f.pointer = none) (h : Pool.Step .kalloc f f') :
    f'.OnePage pages := by
  obtain rfl := hf.eq_initial hnull
  cases h with
  | kalloc p hp => exact .oneTaken p hp

end

end Pool.OnePage

section Clear

variable {pages : Finset ℕ} (hclear : LoadsClear s c)
  (hp : f.pointer.isSome = s.raidMetadata.isSome)

include hclear hp

/-- What an allowed call asks of the allocator: nothing, a page while the pointer is null, to give
back the page of an array, or both. -/
theorem pageCalls_cases :
    pageCalls s c = [] ∨ f.pointer = none ∧ pageCalls s c = [.kalloc] ∨
      f.pointer.isSome = true ∧ pageCalls s c = [.kfree] ∨
      f.pointer = none ∧ pageCalls s c = [.kalloc, .kfree] := by
  have hload : s.raidMetadata = none ∨ s.ready = true → f.pointer = none ∧ loadCalls s = [.kalloc] ∧
      s.ready = false ∨ f.pointer.isSome = true ∧ loadCalls s = [] ∧ s.ready = true := by
    rintro (hnone | hready)
    · have hready : s.ready = false := by simp [Machine.ready, hnone]
      exact .inl ⟨by simpa [hnone] using hp, by simp [loadCalls, hready], hready⟩
    · exact .inr ⟨hp.trans (isSome_of_ready hready), by simp [loadCalls, hready], hready⟩
  cases c with
  | initRaid x =>
    rcases hload hclear with ⟨hnull, hcalls, -⟩ | ⟨-, hcalls, -⟩
    · exact .inr (.inl ⟨hnull, hcalls⟩)
    · exact .inl hcalls
  | infoRaid =>
    rcases hload hclear with ⟨hnull, hcalls, -⟩ | ⟨-, hcalls, -⟩
    · exact .inr (.inl ⟨hnull, hcalls⟩)
    · exact .inl hcalls
  | destroyRaid =>
    rcases hload hclear with ⟨hnull, hcalls, hready⟩ | ⟨hsome, hcalls, hready⟩
    · cases hinit : (s.super 1).raidInitialized with
      | true => exact .inr (.inr (.inr ⟨hnull, by simp [pageCalls, hcalls, hinit]⟩))
      | false => exact .inr (.inl ⟨hnull, by simp [pageCalls, hcalls, hready, hinit]⟩)
    · exact .inr (.inr (.inl ⟨hsome, by simp [pageCalls, hcalls, hready]⟩))
  | _ => exact .inl rfl

theorem Pool.OnePage.steps (hf : f.OnePage pages) (h : f.Steps (pageCalls s c) f') :
    f'.OnePage pages := by
  rcases pageCalls_cases hclear hp with hcalls | ⟨hnull, hcalls⟩ | ⟨-, hcalls⟩ | ⟨hnull, hcalls⟩
  · rw [hcalls] at h
    cases h
    exact hf
  · rw [hcalls] at h
    obtain _ | ⟨h₁, _ | _⟩ := h
    exact hf.kalloc hnull h₁
  · rw [hcalls] at h
    obtain _ | ⟨h₁, _ | _⟩ := h
    exact hf.kfree h₁
  · rw [hcalls] at h
    obtain _ | ⟨h₁, _ | ⟨h₂, _ | _⟩⟩ := h
    exact (hf.kalloc hnull h₁).kfree h₂

/-- An allowed call finds the page it asks for. -/
theorem Pool.OnePage.exists_steps (hf : f.OnePage pages) (hne : pages.Nonempty) :
    ∃ f', f.Steps (pageCalls s c) f' := by
  obtain ⟨q, hq⟩ := hne
  rcases pageCalls_cases hclear hp with hcalls | ⟨hnull, hcalls⟩ | ⟨hsome, hcalls⟩ | ⟨hnull, hcalls⟩
  · rw [hcalls]
    exact ⟨f, .nil f⟩
  · obtain rfl := hf.eq_initial hnull
    rw [hcalls]
    exact ⟨_, .cons (.kalloc q hq) (.nil _)⟩
  · obtain ⟨p, hp⟩ := Option.isSome_iff_exists.1 hsome
    rw [hcalls]
    exact ⟨_, .cons (.kfree p hp) (.nil _)⟩
  · obtain rfl := hf.eq_initial hnull
    rw [hcalls]
    exact ⟨_, .cons (.kalloc q hq) (.cons (.kfree q rfl) (.nil _))⟩

end Clear

/-- **The array holds at most one page**, if the calls that take one come only when `raid_metadata`
is null or its array initialised. -/
theorem one_page (hn : 1 ≤ cfg.disks) : HoldsOnePage cfg LoadsClear := by
  intro s₀ hs₀ pages hne s f hrun
  have hone : f.OnePage pages := by
    induction hrun with
    | start => exact .allFree
    | next hrun _ hclear _ hsteps ih =>
      exact ih.steps hclear (Prod.mk.inj (pool_agrees hn hs₀ hrun).2).2 hsteps
  obtain ⟨hcard, hp⟩ := Prod.mk.inj (pool_agrees hn hs₀ hrun).2
  refine ⟨hone.taken_eq, hone.union_eq, hcard ▸ hone.card_le, fun c hclear => ?_⟩
  exact hone.exists_steps hclear hp hne

/-- A call of a run by evaluation. -/
theorem PageRun.eval {ok : Machine → Call → Prop} {s₀ : Machine} {f₀ : Pool} {l : List PageCall}
    (hrun : PageRun cfg ok s₀ f₀ s f) (hc : c.isSystemCall = true ∧ pageCalls s c = l ∧
      (exec cfg c s).val.toBool = true) (hok : ok s c) (hsteps : f.Steps l f') :
    PageRun cfg ok s₀ f₀ (exec cfg c s).state f' := by
  obtain ⟨hcall, rfl, hval⟩ := hc
  obtain ⟨r, hr⟩ := Reach.returns_of_toBool hval
  exact hrun.next hcall hok hr hsteps

/-- An array is made, destroyed and made again: the page is given back in between. -/
theorem one_page_three : 1 ≤ (smallConfig 3).disks ∧ HoldsOnePage (smallConfig 3) LoadsClear ∧
    ∃ s f, PageRun (smallConfig 3) LoadsClear blankMachine (.initial {0, 1}) s f ∧
      f = ⟨{0}, {1}, some 1⟩ ∧ s.pages ≤ 1 := by
  have hn : 1 ≤ (smallConfig 3).disks := by decide
  have hrun₁ : PageRun (smallConfig 3) LoadsClear blankMachine (.initial {0, 1}) _
      ⟨{1}, {0}, some 0⟩ :=
    PageRun.start.eval (c := .initRaid 1) (l := [.kalloc]) (by decide +kernel) (.inl rfl)
      (.cons (.kalloc 0 (by decide)) (.nil _))
  have hrun₂ : PageRun (smallConfig 3) LoadsClear blankMachine (.initial {0, 1}) _
      ⟨{0, 1}, ∅, none⟩ :=
    hrun₁.eval (c := .destroyRaid) (l := [.kfree]) (by decide +kernel) (.inr (by decide +kernel))
      (.cons (.kfree 0 rfl) (.nil _))
  have hnone : (Reach.after (exec (smallConfig 3)) [.initRaid 1, .destroyRaid]
      blankMachine).raidMetadata = none := Option.isNone_iff_eq_none.1 (by decide +kernel)
  have hrun₃ : PageRun (smallConfig 3) LoadsClear blankMachine (.initial {0, 1}) _
      ⟨{0}, {1}, some 1⟩ :=
    hrun₂.eval (c := .initRaid 1) (l := [.kalloc]) (by decide +kernel) (.inl hnone)
      (.cons (.kalloc 1 (by decide)) (.nil _))
  have hone := one_page hn
  obtain ⟨-, -, hpages, -⟩ :=
    hone blankMachine ⟨rfl, rfl⟩ {0, 1} (Finset.insert_nonempty 0 {1}) _ _ hrun₃
  exact ⟨hn, hone, _, _, hrun₃, rfl, hpages⟩

/-- **Two questions for the size of an array that does not exist**: the page of the first is
lost. -/
theorem info_leaks : ¬ HoldsOnePage (smallConfig 3) fun _ _ => True := by
  intro hall
  have hrun₁ : PageRun (smallConfig 3) (fun _ _ => True) blankMachine (.initial {0, 1}) _
      ⟨{1}, {0}, some 0⟩ :=
    PageRun.start.eval (c := .infoRaid) (l := [.kalloc]) (by decide +kernel) trivial
      (.cons (.kalloc 0 (by decide)) (.nil _))
  have hrun₂ : PageRun (smallConfig 3) (fun _ _ => True) blankMachine (.initial {0, 1}) _
      ⟨∅, {1, 0}, some 1⟩ :=
    hrun₁.eval (c := .infoRaid) (l := [.kalloc]) (by decide +kernel) trivial
      (.cons (.kalloc 1 (by decide)) (.nil _))
  obtain ⟨htaken, -⟩ :=
    hall blankMachine ⟨rfl, rfl⟩ {0, 1} (Finset.insert_nonempty 0 {1}) _ _ hrun₂
  exact absurd (htaken 0 (by decide)) (by decide)

end RaidSystem
