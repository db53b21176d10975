/-
**Concurrent accesses and serial orders.**

Accesses that run at the same time are *serialisable* if, once all have returned, their replies and
the contents of the array are those of some serial order of the calls.  They are as long as a call
begins only when no other is in progress, or when the stripe it needs is the one in the cache and
has been loaded (`accesses_serialisable`).  Writes to one stripe may overlap in any way then: each
of them changes the slots in one piece, and the disks follow.  Without the condition a call may
switch the cache to another stripe under the feet of one that goes on to use it
(`switch_loses_write`).

* `Serialisable` — what is asked of a run;
* `Orderly` — the condition on the beginning of a call;
* `Sequential` — a serial run and the contents it leads to;
* `Balanced` — the serial run is one of the calls that have returned, and of the writes whose slots
  have changed;
* `Shared`, `Loading` — the two phases of a run, several calls on one loaded stripe and one call
  that loads its stripe;
* `SerialInv` — the invariant;
* `OrderlyNow` — the condition in a form that can be evaluated.
-/

import RaidSystem.SharedCache
import RaidSystem.ParityGuarantees
import Mathlib.Algebra.Order.Group.Multiset

set_option autoImplicit false

namespace RaidSystem.Concurrent

open Prog Finset

/-! ### What is asked -/

/-- The calls that have returned, with their replies, the latest first. -/
def completed : List (Action × Event) → List (Call × Reply)
  | [] => []
  | (_, .returned c r) :: l => (c, r) :: completed l
  | (_, .silent) :: l => completed l

/-- The calls with log `l`, made on the machine `s₁`, have led to `s` as in some serial order. -/
structure Serialisable (cfg : Config) (s₁ : Machine) (l : List (Action × Event)) (s : Machine) :
    Prop where
  /-- A serial run of the same calls gives the same replies, and the same contents afterwards. -/
  order : ∃ h s', h.Perm (completed l) ∧ LogReach (exec cfg) (fun _ _ => True) s₁ h s' ∧
    ∀ x y, Delivers cfg s x y ↔ Delivers cfg s' x y
  /-- The blocks of every stripe add up to zero. -/
  parity : ∀ k, 1 ≤ k → ∑ d ∈ Icc 1 cfg.disks, s.disk d (2 * k) = 0

/-- The system before the first call. -/
def start (s : Machine) : System := { machine := s, procs := fun _ => none }

/-- On an array of type `t` that has no dead disk and holds contents, every run of steps allowed by
`ok` is serialisable when all its calls have returned. -/
def AlwaysSerialisable (cfg : Config) (t : RaidType) (ok : System → Action → Prop) : Prop :=
  ∀ s₁ L m, Holds cfg t none L s₁ m → ∀ l s, LogReach (step cfg) ok (start s₁) l s →
    (∀ p, s.procs p = none) → Serialisable cfg s₁ l s.machine

/-- All calls are reads and writes. -/
def AccessStep : Action → Prop
  | .call _ c => c.isAccess = true
  | .run _ => True

/-- The call is loading its stripe. -/
def Pc.loading : Pc → Bool
  | .before _ (.read _ _ _) _ => true
  | .after _ (.loop _) => true
  | _ => false

/-- An access begins when no other is in progress, or when its stripe is cached and loaded.  An
access that the guard refuses may begin at any time. -/
def Orderly (cfg : Config) (s : System) : Action → Prop
  | .call _ c => ∀ m write b buf, s.machine.raidMetadata = some m → c = callOf write b buf →
      m.Accepts b → (∀ q, s.procs q = none) ∨
        m.stripe = stripeOf cfg.disks b ∧ ∀ q k, s.procs q = some k → k.pc.loading = false
  | .run _ => True

variable {cfg : Config} {t : RaidType} {s₁ : Machine} {L : ℕ → ℕ → Sector} {m : Raid}
  {h : List (Call × Reply)} {l : List (Action × Event)} {s s' : System} {w : Bool} {b p : ℕ}
  {buf : Block} {c : Call}

/-! ### Serial runs -/

/-- The reply to a read. -/
def delivered (y : Sector) (buf : Block) : Reply := { code := 0, data := some (y, buf.2) }

/-- The serial run `h` leads to the contents `L`. -/
def Sequential (cfg : Config) (t : RaidType) (s₁ : Machine) (h : List (Call × Reply))
    (L : ℕ → ℕ → Sector) : Prop :=
  ∃ s m, LogReach (exec cfg) (fun _ _ => True) s₁ h s ∧ Holds cfg t none L s m

/-- What a read of a block on the disks returns. -/
theorem read_returns {M : Machine} (hc : ParityConfig cfg t) (hL : Holds cfg t none L M m)
    (hb : cfg.OnDisk (stripeOf cfg.disks b)) (buf : Block) : ∃ M' m',
      Returns (exec cfg (.readRaid b (some buf))) M
        (delivered (L (dataDiskOf t cfg.disks b) (stripeOf cfg.disks b)) buf) M' ∧
      Holds cfg t none L M' m' := by
  obtain ⟨h₁, h₂, hp⟩ := dataDiskOf_spec (t := t) hc.disks b
  obtain ⟨M', m', hread, hL'⟩ := hL.readStripe hc (stripeOf_pos _ _) hb h₁ h₂ hp buf
  have hcall := (returns_readRaid_parity hc hL.raidMetadata hL.shape (hL.shape.accepts hc hb)).2
    ⟨_, hread, rfl⟩
  exact ⟨M', m', returns_exec_readRaid.2 ⟨_, hcall, rfl⟩, hL'⟩

namespace Sequential

variable (hS : Sequential cfg t s₁ h L)

include hS

theorem read (hc : ParityConfig cfg t) (hb : cfg.OnDisk (stripeOf cfg.disks b)) (buf : Block) :
    Sequential cfg t s₁ ((callOf false b buf,
      delivered (L (dataDiskOf t cfg.disks b) (stripeOf cfg.disks b)) buf) :: h) L := by
  obtain ⟨s, m, hr, hL⟩ := hS
  obtain ⟨s', m', hread, hL'⟩ := read_returns hc hL hb buf
  exact ⟨s', m', hr.next trivial hread, hL'⟩

theorem write (hc : ParityConfig cfg t) (hb : cfg.OnDisk (stripeOf cfg.disks b)) (buf : Block) :
    Sequential cfg t s₁ ((callOf true b buf, { code := 0, data := some buf }) :: h)
      (storeContents L (parityOf t cfg.disks (stripeOf cfg.disks b)) (dataDiskOf t cfg.disks b)
        (stripeOf cfg.disks b) buf.1) := by
  obtain ⟨s, m, hr, hL⟩ := hS
  obtain ⟨h₁, h₂, hp⟩ := dataDiskOf_spec (t := t) hc.disks b
  obtain ⟨s', m', hwrite, hL'⟩ := hL.writeStripe hc (stripeOf_pos _ _) hb h₁ h₂ hp buf
    fun _ hf => by cases hf
  have hcall := (returns_writeRaid_parity hc hL.raidMetadata hL.shape (hL.shape.accepts hc hb)).2
    ⟨_, hwrite, rfl⟩
  exact ⟨s', m', hr.next trivial (returns_exec_writeRaid.2 ⟨_, hcall, rfl⟩), hL'⟩

/-- An access that is refused changes nothing. -/
theorem refused {x : ℤ} {data : Option Block} (hc : c = .readRaid x data ∨ c = .writeRaid x data)
    (hrefused : ¬ ∃ buf, data = some buf ∧ 0 ≤ x ∧ x < capacity cfg cfg.disks) :
    Sequential cfg t s₁ ((c, { code := -1, data := data }) :: h) L := by
  obtain ⟨s, m, hr, hL⟩ := hS
  have hnot : ¬ ∃ m buf, s.raidMetadata = some m ∧ data = some buf ∧ m.Accepts x := by
    rintro ⟨m', buf, hm', hbuf, -, hx₀, hx⟩
    obtain rfl := Option.mem_unique hL.raidMetadata hm'
    rw [hL.shape.maxBlocks] at hx
    exact hrefused ⟨buf, hbuf, hx₀, hx⟩
  refine ⟨s, m, ?_, hL⟩
  rcases hc with rfl | rfl
  · exact hr.next trivial
      (returns_exec_readRaid.2 ⟨_, (accessRaid_rejected hnot).2 ⟨rfl, rfl⟩, rfl⟩)
  · exact hr.next trivial
      (returns_exec_writeRaid.2 ⟨_, (accessRaid_rejected hnot).2 ⟨rfl, rfl⟩, rfl⟩)

end Sequential

/-- What a read delivers, in terms of the contents. -/
theorem delivers_iff {M : Machine} (hc : ParityConfig cfg t) (hL : Holds cfg t none L M m) {x : ℤ}
    {y : Sector} : Delivers cfg M x y ↔ ∃ b : ℕ, x = b ∧ cfg.OnDisk (stripeOf cfg.disks b) ∧
      y = L (dataDiskOf t cfg.disks b) (stripeOf cfg.disks b) := by
  constructor
  · rintro ⟨buf, r, M', hr, hcode, hy⟩
    rcases readRaid_cases hc hL.raidMetadata hL.shape hr with ⟨hrej, -⟩ | ⟨b, buf', rfl, hbuf, hb⟩
    · omega
    · obtain rfl := Option.some_inj.1 hbuf
      obtain ⟨M'', -, hr', -⟩ := read_returns hc hL hb buf
      obtain ⟨rfl, -⟩ := hr.unique hr'
      exact ⟨b, rfl, hb, (Option.some_inj.1 hy).symm⟩
  · rintro ⟨b, rfl, hb, rfl⟩
    obtain ⟨M', -, hr, -⟩ := read_returns hc hL hb 0
    exact ⟨0, _, M', hr, rfl, rfl⟩

/-! ### Accounts -/

/-- The frame of a write whose slots have changed. -/
def Pc.written : Pc → Option Frame
  | .before f _ .synced | .after f .synced | .before f _ .stored | .after f .stored => some f
  | _ => none

/-- The call of a process that is a write whose slots have changed, with the reply it will get. -/
def pending : Option Task → Multiset (Call × Reply)
  | none => 0
  | some k =>
    match k.pc.written with
    | some f => {(k.call, f.reply)}
    | none => 0

/-- The serial run `h` is one of the calls that have returned, and of the writes in progress whose
slots have changed. -/
def Balanced (l : List (Action × Event)) (s : System) (h : List (Call × Reply)) : Prop :=
  ∃ w : Finset ℕ, (∀ p ∉ w, s.procs p = none) ∧
    (h : Multiset (Call × Reply)) = completed l + ∑ p ∈ w, pending (s.procs p)

theorem balanced_start (M : Machine) : Balanced [] (start M) [] :=
  ⟨∅, fun _ _ => rfl, rfl⟩

/-- The accounts after a step of process `p`. -/
theorem Balanced.put (hB : Balanced l s h) {l' : List (Action × Event)} {h' : List (Call × Reply)}
    {M : Machine} {v : Option Task}
    (hsame : (h' : Multiset (Call × Reply)) + completed l + pending (s.procs p) =
      h + completed l' + pending v) : Balanced l' (s.put p M v) h' := by
  obtain ⟨w, hw, hsum⟩ := hB
  refine ⟨insert p w, ?_, ?_⟩
  · intro q hq
    rw [mem_insert, not_or] at hq
    rw [put_of_ne hq.1]
    exact hw q hq.2
  -- the sums over the other processes agree
  have hold : ∑ q ∈ w, pending (s.procs q) =
      pending (s.procs p) + ∑ q ∈ w.erase p, pending (s.procs q) := by
    by_cases hp : p ∈ w
    · exact (Finset.add_sum_erase w _ hp).symm
    · rw [Finset.erase_eq_of_notMem hp, hw p hp, pending, zero_add]
  have hnew : ∑ q ∈ insert p w, pending ((s.put p M v).procs q) =
      pending v + ∑ q ∈ w.erase p, pending (s.procs q) := by
    rw [← Finset.add_sum_erase _ _ (mem_insert_self p w), Finset.erase_insert_eq_erase]
    congr 1
    · rw [put_self]
    · refine Finset.sum_congr rfl fun q hq => ?_
      rw [put_of_ne (ne_of_mem_erase hq)]
  rw [hnew]
  rw [hold] at hsum
  refine add_right_cancel (b := (completed l : Multiset (Call × Reply)) + pending (s.procs p)) ?_
  rw [← add_assoc, hsame, hsum]
  abel

section Entries

variable {a : Action} {r : Reply} {M : Machine} {v : Option Task} (hB : Balanced l s h)

include hB

/-- A call returns that is not in the serial run yet. -/
theorem Balanced.returns (hp : pending (s.procs p) = 0) :
    Balanced ((a, .returned c r) :: l) (s.put p M none) ((c, r) :: h) := by
  refine hB.put ?_
  rw [hp, pending, completed, ← Multiset.cons_coe, ← Multiset.cons_coe, Multiset.cons_add,
    Multiset.add_cons]

/-- A write changes its slots, and becomes part of the serial run. -/
theorem Balanced.writes (hp : pending (s.procs p) = 0) (hv : pending v = {(c, r)}) :
    Balanced ((a, .silent) :: l) (s.put p M v) ((c, r) :: h) := by
  refine hB.put ?_
  rw [hp, hv, completed, ← Multiset.cons_coe, Multiset.cons_add, Multiset.cons_add,
    add_comm _ {(c, r)}, Multiset.singleton_add, add_zero]

/-- A call goes on. -/
theorem Balanced.continues (hv : pending v = pending (s.procs p)) :
    Balanced ((a, .silent) :: l) (s.put p M v) h := by
  refine hB.put ?_
  rw [hv, completed]

/-- A write returns that is part of the serial run. -/
theorem Balanced.finishes (hp : pending (s.procs p) = {(c, r)}) :
    Balanced ((a, .returned c r) :: l) (s.put p M none) h := by
  refine hB.put ?_
  rw [hp, pending, completed, ← Multiset.cons_coe, Multiset.add_cons, add_comm _ {(c, r)},
    Multiset.singleton_add, add_zero]

end Entries

/-- The serial run when all calls have returned. -/
theorem Balanced.perm (hB : Balanced l s h) (hidle : ∀ p, s.procs p = none) :
    h.Perm (completed l) := by
  obtain ⟨w, -, hsum⟩ := hB
  simp only [hidle, pending, Finset.sum_const_zero, add_zero] at hsum
  exact Multiset.coe_eq_coe.1 hsum

/-! ### Several calls on one stripe -/

/-- The disks that a call is yet to bring up to date. -/
def Pc.owes (cfg : Config) (t : RaidType) (e : ℕ) : Pc → Prop
  | .before f _ .synced => e = f.diskn ∨ e = parityOf t cfg.disks f.stripe
  | .after f .synced | .before f _ .stored => e = f.diskn
  | _ => False

/-- A call is yet to write the parity block. -/
def Pc.owesParity : Pc → Prop
  | .before _ _ .synced => True
  | _ => False

/-- Some call in progress is at a point with `P`. -/
def System.Some (s : System) (P : Pc → Prop) : Prop := ∃ q k, s.procs q = some k ∧ P k.pc

theorem System.Some.put {P : Pc → Prop} {M : Machine} {v : Option Task} (h : s.Some P)
    (hp : ∀ k, s.procs p = some k → P k.pc → ∃ k', v = some k' ∧ P k'.pc) :
    (s.put p M v).Some P := by
  obtain ⟨q, k, hq, hk⟩ := h
  rcases eq_or_ne q p with rfl | hqp
  · obtain ⟨k', hv, hk'⟩ := hp k hq hk
    exact ⟨q, k', by rw [put_self, hv], hk'⟩
  · exact ⟨q, k, by rw [put_of_ne hqp, hq], hk⟩

/-- The same for a process that is in a call. -/
theorem System.Some.pass {P : Pc → Prop} {M : Machine} {v : Option Task} {k : Task} (h : s.Some P)
    (hp : s.procs p = some k) (hnext : P k.pc → ∃ k', v = some k' ∧ P k'.pc) :
    (s.put p M v).Some P := by
  refine h.put fun k' hk' hP => hnext ?_
  obtain rfl := Option.mem_unique hk' hp
  exact hP

/-- The call is at a point after the loading of its stripe `k`. -/
inductive Working (cfg : Config) (t : RaidType) : Call → Pc → ℕ → Prop
  | cached {w : Bool} {b : ℕ} {buf : Block} : Working cfg t (callOf w b buf)
      (.after (frameOf cfg t w b buf) .cached) (stripeOf cfg.disks b)
  | syncing {b p : ℕ} {buf : Block} (hp : p = parityOf t cfg.disks (stripeOf cfg.disks b)) :
      Working cfg t (callOf true b buf) (.before (frameOf cfg t true b buf)
        (.write p (stripeOf cfg.disks b) (p - 1)) .synced) (stripeOf cfg.disks b)
  | synced {b : ℕ} {buf : Block} : Working cfg t (callOf true b buf)
      (.after (frameOf cfg t true b buf) .synced) (stripeOf cfg.disks b)
  | storing {b d : ℕ} {buf : Block} (hd : d = dataDiskOf t cfg.disks b) :
      Working cfg t (callOf true b buf) (.before (frameOf cfg t true b buf)
        (.write d (stripeOf cfg.disks b) (d - 1)) .stored) (stripeOf cfg.disks b)
  | stored {b : ℕ} {buf : Block} : Working cfg t (callOf true b buf)
      (.after (frameOf cfg t true b buf) .stored) (stripeOf cfg.disks b)

/-- The calls in progress work on the cached stripe, and the slots hold the contents `L`. -/
structure Shared (cfg : Config) (t : RaidType) (L : ℕ → ℕ → Sector) (s : System) (m : Raid) :
    Prop where
  lags : Lags cfg t L s.machine m (fun e => s.Some (Pc.owes cfg t e)) (s.Some Pc.owesParity)
  working : ∀ q k, s.procs q = some k → ∃ j : ℕ, Working cfg t k.call k.pc j ∧ m.stripe = j

namespace Shared

variable (hS : Shared cfg t L s m)

include hS

/-- When no call is in progress the disks are up to date. -/
theorem holds (hidle : ∀ q, s.procs q = none)
    (hsum : ∀ k, 1 ≤ k → ∑ d ∈ Icc 1 cfg.disks, L d k = 0) : Holds cfg t none L s.machine m := by
  have hnone : ∀ P, ¬ s.Some P := by
    rintro P ⟨q, k, hq, -⟩
    rw [hidle q] at hq
    cases hq
  exact hS.lags.holds (fun _ => hnone _) (hnone _) hsum

/-- A step of process `p` that leaves the metadata alone. -/
theorem put {L' : ℕ → ℕ → Sector} {M : Machine} {v : Option Task} {owed : ℕ → Prop} {spill : Prop}
    (hlags : Lags cfg t L' M m owed spill)
    (howed : ∀ e, owed e → (s.put p M v).Some (Pc.owes cfg t e))
    (hspill : spill → (s.put p M v).Some Pc.owesParity)
    (hv : ∀ k, v = some k → ∃ j : ℕ, Working cfg t k.call k.pc j ∧ m.stripe = j) :
    Shared cfg t L' (s.put p M v) m := by
  refine ⟨hlags.mono howed hspill, ?_⟩
  intro q k hq
  rcases eq_or_ne q p with rfl | hqp
  · rw [put_self] at hq
    exact hv k hq
  · rw [put_of_ne hqp] at hq
    exact hS.working q k hq

end Shared

/-! ### One call that loads its stripe -/

/-- The call is loading its stripe. -/
inductive Loading (cfg : Config) (t : RaidType) (L : ℕ → ℕ → Sector) (M : Machine) (f : Frame) :
    Pc → Prop
  | loop {m : Raid} {i : ℕ} (hm : M.raidMetadata = some { m with stripe := f.stripe }) (h₁ : 1 ≤ i)
      (h₂ : i ≤ m.numOfDisks) (hload : LoadedTo cfg t L M m f.stripe i) :
      Loading cfg t L M f (.before f (.read i f.stripe (i - 1)) (.loop i))
  | next {m : Raid} {i : ℕ} (hm : M.raidMetadata = some { m with stripe := f.stripe })
      (h₂ : i ≤ m.numOfDisks) (hk : cfg.OnDisk f.stripe)
      (hload : LoadedTo cfg t L M m f.stripe (i + 1)) : Loading cfg t L M f (.after f (.loop i))
  | parity {m : Raid} {p : ℕ} (hp : p = parityOf t cfg.disks f.stripe)
      (hm : M.raidMetadata = some (cachedMeta m f.stripe p)) (hk : cfg.OnDisk f.stripe)
      (hload : LoadedTo cfg t L M m f.stripe (m.numOfDisks + 1)) :
      Loading cfg t L M f (.before f (.read p f.stripe (p - 1)) .cached)

/-- The two phases of a run. -/
inductive Phase (cfg : Config) (t : RaidType) (L : ℕ → ℕ → Sector) (s : System) : Prop
  | shared {m : Raid} (hS : Shared cfg t L s m)
  | loading {p b : ℕ} {w : Bool} {buf : Block} {pc : Pc}
      (hp : s.procs p = some { call := callOf w b buf, pc := pc })
      (hload : Loading cfg t L s.machine (frameOf cfg t w b buf) pc)
      (hidle : ∀ q ≠ p, s.procs q = none)

/-- **The invariant.**  A serial run of the calls that have returned, and of the writes whose slots
have changed, leads to contents that the system holds. -/
def SerialInv (cfg : Config) (t : RaidType) (s₁ : Machine) (l : List (Action × Event))
    (s : System) :
    Prop :=
  ∃ L h, Sequential cfg t s₁ h L ∧ Balanced l s h ∧ Phase cfg t L s

theorem Sequential.sum_eq_zero (hS : Sequential cfg t s₁ h L) (k : ℕ) (hk : 1 ≤ k) :
    ∑ d ∈ Icc 1 cfg.disks, L d k = 0 := by
  obtain ⟨_, _, -, hL⟩ := hS
  exact hL.sum_eq_zero k hk

/-- The guard is that of the array. -/
theorem Phase.accepts_iff (hP : Phase cfg t L s) : ∃ m, s.machine.raidMetadata = some m ∧
    ∀ x, m.Accepts x ↔ 0 ≤ x ∧ x < capacity cfg cfg.disks := by
  have hshape : ∀ m x, ParityMeta cfg t none m →
      (m.Accepts x ↔ 0 ≤ x ∧ x < capacity cfg cfg.disks) := by
    intro m x hm
    rw [Raid.Accepts, hm.maxBlocks, and_iff_right hm.raidInitialized]
  cases hP with
  | shared hS => exact ⟨_, hS.lags.raidMetadata, fun x => hshape _ x hS.lags.shape⟩
  | loading hp hload hidle =>
    cases hload with
    | @loop m _ hm _ _ hload => exact ⟨_, hm, fun x => hshape m x hload.shape⟩
    | @next m _ hm _ _ hload => exact ⟨_, hm, fun x => hshape m x hload.shape⟩
    | @parity m _ _ hm _ hload => exact ⟨_, hm, fun x => hshape m x hload.shape⟩

/-! ### Steps -/

section Steps

variable {M : Machine} {g : Progress} {a : Action}

/-- A call that the guard refuses leaves everything as it is. -/
theorem SerialInv.refused (hI : SerialInv cfg t s₁ l s) (hp : s.procs p = none) {x : ℤ}
    {data : Option Block} (hc : c = .readRaid x data ∨ c = .writeRaid x data)
    (hnot : ¬ ∃ m buf, s.machine.raidMetadata = some m ∧ data = some buf ∧ m.Accepts x)
    (hr : Returns (enter cfg c) s.machine g M) :
    SerialInv cfg t s₁ ((a, g.event c) :: l) (s.put p M (g.task c)) := by
  obtain ⟨L, h, hseq, hB, hP⟩ := hI
  obtain ⟨m, hm, hacc⟩ := hP.accepts_iff
  have hrefused : ¬ ∃ buf, data = some buf ∧ 0 ≤ x ∧ x < capacity cfg cfg.disks := by
    rintro ⟨buf, hbuf, hx⟩
    exact hnot ⟨m, buf, hm, hbuf, (hacc x).2 hx⟩
  obtain ⟨rfl, rfl⟩ : g = .returned { code := -1, data := data } ∧ M = s.machine := by
    rcases hc with rfl | rfl
    · exact (returns_enterAccess_refused hnot false).1 hr
    · exact (returns_enterAccess_refused hnot true).1 hr
  have hput : s.put p s.machine none = s := by
    rw [System.put, ← hp, Function.update_eq_self]
  refine ⟨L, _, hseq.refused hc hrefused, hB.returns (by rw [hp, pending]), ?_⟩
  rw [Progress.task, hput]
  exact hP

/-- An access whose stripe is in the cache. -/
theorem Shared.access (hc : ParityConfig cfg t) (hS : Shared cfg t L s m)
    (hseq : Sequential cfg t s₁ h L) (hB : Balanced l s h)
    (hp : ∀ k, s.procs p = some k → ∃ f, k.pc = .after f .cached)
    (hk : m.stripe = stripeOf cfg.disks b)
    (hr : Returns (if w then updateParity cfg (frameOf cfg t w b buf)
      else readSlot cfg (frameOf cfg t w b buf)) s.machine g M) :
    SerialInv cfg t s₁ ((a, g.event (callOf w b buf)) :: l)
      (s.put p M (g.task (callOf w b buf))) := by
  obtain ⟨h₁, h₂, hdp⟩ := dataDiskOf_spec (t := t) hc.disks b
  obtain ⟨hp₁, hp₂⟩ := hc.parityOf_mem (stripeOf cfg.disks b)
  obtain ⟨-, hdisk, hpc⟩ := hS.lags.shape.cached _ hk
  have hm := hS.lags.raidMetadata
  have halive := allAlive_of_parityMeta hS.lags.shape
  -- the process owes nothing yet
  have hpend : pending (s.procs p) = 0 := by
    cases hk : s.procs p with
    | none => rfl
    | some k =>
      obtain ⟨f, hf⟩ := hp k hk
      simp [pending, hf, Pc.written]
  have hfree : ∀ k, s.procs p = some k → (∀ e, ¬ k.pc.owes cfg t e) ∧ ¬ k.pc.owesParity := by
    intro k hk
    obtain ⟨f, hf⟩ := hp k hk
    simp [hf, Pc.owes, Pc.owesParity]
  cases w with
  | false =>
    have hread := readSlot_returns (f := frameOf cfg t false b buf) hm halive hc.fits h₁ h₂
    obtain ⟨rfl, rfl⟩ := hr.unique hread
    have hslot : s.machine.page (dataDiskOf t cfg.disks b) =
        L (dataDiskOf t cfg.disks b) (stripeOf cfg.disks b) := hS.lags.slots _ hk _ h₁ h₂
    have hreply := hseq.read hc hdisk buf
    rw [← hslot] at hreply
    refine ⟨L, _, hreply, hB.returns hpend, .shared (hS.put hS.lags ?_ ?_ ?_)⟩
    · intro e he
      exact he.put fun k hk hown => absurd hown ((hfree k hk).1 e)
    · intro he
      exact he.put fun k hk hown => absurd hown (hfree k hk).2
    · intro k hk
      cases hk
  | true =>
    have hwrite := updateParity_returns (f := frameOf cfg t true b buf) hm halive hc.fits h₁ h₂ hp₁
      hp₂ hdp hk hpc
    obtain ⟨rfl, rfl⟩ := hr.unique hwrite
    refine ⟨_, _, hseq.write hc hdisk buf, hB.writes hpend rfl,
      .shared (hS.put (hS.lags.update hk hc h₁ h₂ hdp buf.1) ?_ ?_ ?_)⟩
    · rintro e (he | he)
      · exact he.put fun k hk hown => absurd hown ((hfree k hk).1 e)
      · exact ⟨p, _, put_self, he⟩
    · intro _
      exact ⟨p, _, put_self, trivial⟩
    · intro k hk
      cases hk
      exact ⟨_, .syncing rfl, ‹_›⟩

theorem Loading.pc_loading {f : Frame} {pc : Pc} (hload : Loading cfg t L M f pc) :
    pc.loading = true := by
  cases hload <;> rfl

/-- An accepted access begins. -/
theorem SerialInv.begins (hc : ParityConfig cfg t) (hI : SerialInv cfg t s₁ l s)
    (hp : s.procs p = none) (hm : s.machine.raidMetadata = some m) (hb : m.Accepts b)
    (horder : (∀ q, s.procs q = none) ∨
      m.stripe = stripeOf cfg.disks b ∧ ∀ q k, s.procs q = some k → k.pc.loading = false)
    (hr : Returns (enter cfg (callOf w b buf)) s.machine g M) :
    SerialInv cfg t s₁ ((a, g.event (callOf w b buf)) :: l)
      (s.put p M (g.task (callOf w b buf))) := by
  obtain ⟨L, h, hseq, hB, hP⟩ := hI
  cases hP with
  | loading hq hload hidle =>
    -- while a call is loading its stripe no other begins
    rcases horder with hnone | ⟨-, hloaded⟩
    · rw [hnone] at hq
      cases hq
    · have hfalse := hloaded _ _ hq
      rw [hload.pc_loading] at hfalse
      cases hfalse
  | @shared m' hS =>
    obtain rfl := Option.mem_unique hm hS.lags.raidMetadata
    have hstripe := (enter_accepted hc hm hS.lags.shape hb).1 hr
    by_cases hhit : m.stripe = stripeOf cfg.disks b
    · rw [returns_enterStripe_hit hm hhit] at hstripe
      refine hS.access hc hseq hB ?_ hhit hstripe
      intro k hk
      rw [hp] at hk
      cases hk
    · have hidle := horder.resolve_right fun hother => hhit hother.1
      obtain ⟨h₁, h₂, hdp⟩ := dataDiskOf_spec (t := t) hc.disks b
      have hn : 1 ≤ m.numOfDisks := by
        rw [hS.lags.shape.numOfDisks]
        exact h₁.trans (hc.le_numOfDisks h₂ hdp)
      have hmiss := enterStripe_miss_returns (f := frameOf cfg t w b buf) hm
        (allAlive_of_parityMeta hS.lags.shape) hhit hn (by have := hc.disks; omega)
      obtain ⟨rfl, rfl⟩ := hstripe.unique hmiss
      have hL := hS.holds hidle hseq.sum_eq_zero
      refine ⟨L, h, hseq, hB.continues (by rw [hp]; rfl),
        .loading put_self (.loop rfl le_rfl hn (.start hL _ _)) ?_⟩
      intro q hq
      rw [put_of_ne hq]
      exact hidle q

/-- A call goes on that works on the cached stripe. -/
theorem Shared.run (hc : ParityConfig cfg t) (hS : Shared cfg t L s m)
    (hseq : Sequential cfg t s₁ h L) (hB : Balanced l s h) {k : Task} (hp : s.procs p = some k)
    (hr : Returns (resume cfg k.pc) s.machine g M) :
    SerialInv cfg t s₁ ((a, g.event k.call) :: l) (s.put p M (g.task k.call)) := by
  obtain ⟨j, hw, hj⟩ := hS.working p k hp
  have hm := hS.lags.raidMetadata
  have halive := allAlive_of_parityMeta hS.lags.shape
  obtain ⟨call, pc⟩ := k
  cases hw with
  | @cached w b buf =>
    obtain ⟨h₁, h₂, -⟩ := dataDiskOf_spec (t := t) hc.disks b
    rw [resume, continueAt, returns_afterCache hm halive h₁ h₂] at hr
    refine hS.access hc hseq hB ?_ hj hr
    intro k hk
    rw [hp] at hk
    cases hk
    exact ⟨_, rfl⟩
  | @syncing b _ buf hparity =>
    subst hparity
    obtain ⟨hp₁, hp₂⟩ := hc.parityOf_mem (stripeOf cfg.disks b)
    obtain ⟨rfl, hx⟩ := returns_resume_before.1 hr
    obtain ⟨-, rfl⟩ := (returns_store hc.fits hp₁ hp₂).1 hx
    refine ⟨L, h, hseq, hB.continues (by rw [hp]; rfl),
      .shared (hS.put (hS.lags.storeParity hj hc) ?_ False.elim ?_)⟩
    · rintro e ⟨he, hne⟩
      exact he.pass hp fun ho => ⟨_, rfl, ho.resolve_right hne⟩
    · intro k hk
      cases hk
      exact ⟨_, .synced, hj⟩
  | @synced b buf =>
    obtain ⟨h₁, h₂, -⟩ := dataDiskOf_spec (t := t) hc.disks b
    obtain ⟨rfl, rfl⟩ := Returns.unique hr
      (storeData_returns (f := frameOf cfg t true b buf) hm halive h₁ h₂ hj)
    refine ⟨L, h, hseq, hB.continues (by rw [hp]; rfl), .shared (hS.put hS.lags ?_ ?_ ?_)⟩
    · intro e he
      exact he.pass hp fun ho => ⟨_, rfl, ho⟩
    · intro he
      exact he.pass hp False.elim
    · intro k hk
      cases hk
      exact ⟨_, .storing rfl, hj⟩
  | @storing b _ buf hdata =>
    subst hdata
    obtain ⟨h₁, h₂, hdp⟩ := dataDiskOf_spec (t := t) hc.disks b
    obtain ⟨rfl, hx⟩ := returns_resume_before.1 hr
    obtain ⟨-, rfl⟩ := (returns_store hc.fits h₁ h₂).1 hx
    refine ⟨L, h, hseq, hB.continues (by rw [hp]; rfl),
      .shared (hS.put (hS.lags.storeData hj h₁ h₂ hdp) ?_ ?_ ?_)⟩
    · rintro e ⟨he, hne⟩
      exact he.pass hp fun ho => absurd ho hne
    · intro he
      exact he.pass hp False.elim
    · intro k hk
      cases hk
      exact ⟨_, .stored, hj⟩
  | @stored b buf =>
    obtain ⟨rfl, rfl⟩ := returns_pure.1 hr
    refine ⟨L, h, hseq, hB.finishes (by rw [hp]; rfl), .shared (hS.put hS.lags ?_ ?_ ?_)⟩
    · intro e he
      exact he.pass hp False.elim
    · intro he
      exact he.pass hp False.elim
    · intro k hk
      cases hk

/-- A call goes on that is loading its stripe. -/
theorem Loading.run (hc : ParityConfig cfg t) {pc : Pc}
    (hload : Loading cfg t L s.machine (frameOf cfg t w b buf) pc) (hseq : Sequential cfg t s₁ h L)
    (hB : Balanced l s h) (hp : s.procs p = some { call := callOf w b buf, pc := pc })
    (hidle : ∀ q ≠ p, s.procs q = none) (hr : Returns (resume cfg pc) s.machine g M) :
    SerialInv cfg t s₁ ((a, g.event (callOf w b buf)) :: l)
      (s.put p M (g.task (callOf w b buf))) := by
  have hidle' : ∀ v q, q ≠ p → (s.put p M v).procs q = none := by
    intro v q hq
    rw [put_of_ne hq]
    exact hidle q hq
  have hk₁ : 1 ≤ (frameOf cfg t w b buf).stripe := stripeOf_pos _ _
  obtain ⟨hp₁, hp₂⟩ := hc.parityOf_mem (frameOf cfg t w b buf).stripe
  cases hload with
  | @loop m i hm h₁ h₂ hload =>
    have hi : i ≤ cfg.disks := h₂.trans (hload.shape.numOfDisks ▸ hc.numOfDisks_le)
    obtain ⟨rfl, hx⟩ := returns_resume_before.1 hr
    obtain ⟨hdisk, rfl⟩ := (returns_load hc.fits h₁ hi).1 hx
    exact ⟨L, h, hseq, hB.continues (by rw [hp]; rfl),
      .loading put_self (.next hm h₂ hdisk (hload.load h₁ hi hk₁)) (hidle' _)⟩
  | @next m i hm h₂ hdisk hload =>
    have halive : AllAlive cfg { m with stripe := (frameOf cfg t w b buf).stripe } :=
      allAlive_of_parityMeta (m := m) hload.shape
    rw [resume, continueAt, (metadata_returns hm).bind_iff] at hr
    dsimp only at hr
    rcases h₂.lt_or_eq with hlt | rfl
    · -- one more round of the loop
      have hi : i + 1 ≤ cfg.disks := hlt.trans_le (hload.shape.numOfDisks ▸ hc.numOfDisks_le)
      have hloop := cacheLoop_returns (f := frameOf cfg t w b buf) (n := m.numOfDisks - (i + 1)) hm
        halive (by omega) hi
      rw [show m.numOfDisks - (i + 1) + 1 = m.numOfDisks - i by omega] at hloop
      obtain ⟨rfl, rfl⟩ := hr.unique hloop
      exact ⟨L, h, hseq, hB.continues (by rw [hp]; rfl),
        .loading put_self (.loop hm (by omega) hlt hload) (hidle' _)⟩
    · rw [Nat.sub_self, cacheLoop] at hr
      obtain ⟨rfl, rfl⟩ := hr.unique (cacheParity_returns hm halive hp₁ hp₂ rfl)
      exact ⟨L, h, hseq, hB.continues (by rw [hp]; rfl),
        .loading put_self (.parity (m := m) rfl rfl hdisk (hload.withMetadata _)) (hidle' _)⟩
  | @parity m _ hparity hm hdisk hload =>
    subst hparity
    obtain ⟨rfl, hx⟩ := returns_resume_before.1 hr
    obtain ⟨-, rfl⟩ := (returns_load hc.fits hp₁ hp₂).1 hx
    refine ⟨L, h, hseq, hB.continues (by rw [hp]; rfl),
      .shared ⟨(hload.loadParity hc hk₁ hdisk hm).mono (fun _ => False.elim) False.elim, ?_⟩⟩
    intro q k hq
    rcases eq_or_ne q p with rfl | hqp
    · rw [put_self] at hq
      cases hq
      exact ⟨_, .cached, rfl⟩
    · rw [hidle' _ q hqp] at hq
      cases hq

/-- Every step of a run that is in order keeps the invariant. -/
theorem SerialInv.step (hc : ParityConfig cfg t) (hI : SerialInv cfg t s₁ l s) (ha : AccessStep a)
    (ho : Orderly cfg s a) {e : Event} (hr : Returns (Concurrent.step cfg a) s e s') :
    SerialInv cfg t s₁ ((a, e) :: l) s' := by
  cases a with
  | call p c =>
    obtain ⟨hp, g, M, hg, rfl, rfl⟩ := returns_step_call.1 hr
    obtain ⟨w, x, data, rfl⟩ : ∃ (w : Bool) (x : ℤ) (data : Option Block),
        c = if w then .writeRaid x data else .readRaid x data := by
      cases c with
      | readRaid x data => exact ⟨false, x, data, rfl⟩
      | writeRaid x data => exact ⟨true, x, data, rfl⟩
      | _ => cases ha
    rcases accepted_or_rejected s.machine x data with ⟨m, buf, b, hm, rfl, rfl, hx⟩ | hacc
    · exact hI.begins hc hp hm hx (ho m w b buf hm rfl hx) hg
    · refine hI.refused hp ?_ hacc hg
      cases w with
      | false => exact .inl rfl
      | true => exact .inr rfl
  | run p =>
    obtain ⟨k, hp, g, M, hg, rfl, rfl⟩ := returns_step_run.1 hr
    obtain ⟨L, h, hseq, hB, hP⟩ := hI
    cases hP with
    | shared hS => exact hS.run hc hseq hB hp hg
    | @loading q b w buf pc hq hload hidle =>
      rcases eq_or_ne p q with rfl | hne
      · obtain rfl := Option.mem_unique hp hq
        exact hload.run hc hseq hB hq hidle hg
      · rw [hidle p hne] at hp
        cases hp

end Steps

/-! ### The theorem -/

/-- **Orderly accesses are serialisable.** -/
theorem accesses_serialisable (hc : ParityConfig cfg t) :
    AlwaysSerialisable cfg t fun s a => AccessStep a ∧ Orderly cfg s a := by
  intro s₁ L₁ m₁ hL₁ l s hreach hidle
  have hstart : SerialInv cfg t s₁ [] (start s₁) :=
    ⟨L₁, [], ⟨s₁, m₁, .start, hL₁⟩, balanced_start s₁,
      .shared ⟨.of_holds hL₁, fun _ _ hq => by cases hq⟩⟩
  obtain ⟨L, h, hseq, hB, hP⟩ := LogReach.inv (SerialInv cfg t s₁) hstart
    (fun _ _ _ _ _ hI hok hr => hI.step hc hok.1 hok.2 hr) hreach
  cases hP with
  | loading hp _ _ =>
    rw [hidle] at hp
    cases hp
  | shared hS =>
    have hL := hS.holds hidle hseq.sum_eq_zero
    obtain ⟨s', m', hr, hL'⟩ := hseq
    refine ⟨⟨h, s', hB.perm hidle, hr, ?_⟩, ?_⟩
    · intro x y
      rw [delivers_iff hc hL, delivers_iff hc hL']
    · intro k hk
      rw [← hL.sum_eq_zero k hk]
      refine Finset.sum_congr rfl fun d hd => ?_
      rw [mem_Icc] at hd
      exact hL.disk d k hd.1 hd.2 hk (by simp)

instance : DecidablePred AccessStep
  | .call _ c => inferInstanceAs (Decidable (c.isAccess = true))
  | .run _ => inferInstanceAs (Decidable True)

/-- The process that acts. -/
def Action.actor : Action → ℕ
  | .call p _ => p
  | .run p => p

/-- A process that has made no call is in none. -/
theorem idle_of_actor_ne {ok : List Action → System → Action → Prop} {acts : List Action}
    {M : Machine}
    (hr : Reach (step cfg) ok (start M) acts s) {q : ℕ} (hq : ∀ a ∈ acts, q ≠ a.actor) :
    s.procs q = none := by
  induction hr with
  | start => rfl
  | @next _ s _ a _ _ _ hret ih =>
    rw [List.forall_mem_cons] at hq
    have hother := ih hq.2
    cases a with
    | call p c =>
      obtain ⟨-, g, M, -, -, rfl⟩ := returns_step_call.1 hret
      exact (put_of_ne hq.1).trans hother
    | run p =>
      obtain ⟨k, -, g, M, -, -, rfl⟩ := returns_step_run.1 hret
      exact (put_of_ne hq.1).trans hother

theorem idle_of_actors {ok : List Action → System → Action → Prop} {acts : List Action}
    {M : Machine} (hr : Reach (step cfg) ok (start M) acts s) {actors : List ℕ}
    (hacts : ∀ a ∈ acts, a.actor ∈ actors)
    (hidle : ∀ p ∈ actors, s.procs p = none) (q : ℕ) : s.procs q = none := by
  by_cases hq : q ∈ actors
  · exact hidle q hq
  · refine idle_of_actor_ne hr fun a ha he => hq ?_
    rw [he]
    exact hacts a ha

/-- An access to block `x` may begin after the actions `h`. -/
def MayBegin (cfg : Config) (h : List Action) (s : System) (x : ℤ) : Prop :=
  (∀ a ∈ h, s.procs a.actor = none) ∨
    s.machine.raidMetadata.map Raid.stripe = some (stripeOf cfg.disks x.toNat : ℤ) ∧
      ∀ a ∈ h, ∀ k ∈ s.procs a.actor, k.pc.loading = false

/-- The condition on the beginning of a call in a form that can be evaluated: only processes that
have acted can be in a call. -/
def OrderlyNow (cfg : Config) (h : List Action) (s : System) : Action → Prop
  | .call _ (.readRaid x _) | .call _ (.writeRaid x _) => MayBegin cfg h s x
  | .call _ _ => False
  | .run _ => True

instance (h : List Action) (s : System) (x : ℤ) : Decidable (MayBegin cfg h s x) :=
  inferInstanceAs (Decidable (_ ∨ _ ∧ _))

instance (h : List Action) (s : System) : DecidablePred (OrderlyNow cfg h s)
  | .call _ (.readRaid x _) | .call _ (.writeRaid x _) =>
    inferInstanceAs (Decidable (MayBegin cfg h s x))
  | .call _ (.initRaid _) | .call _ (.diskFailRaid _) | .call _ (.diskRepairedRaid _)
  | .call _ .infoRaid | .call _ .destroyRaid | .call _ .reboot | .call _ (.elsewhere _) =>
    inferInstanceAs (Decidable False)
  | .run _ => inferInstanceAs (Decidable True)

theorem MayBegin.orderly {acts : List Action} {b : ℕ} (hnow : MayBegin cfg acts s b)
    (hothers : ∀ q, (∀ a ∈ acts, q ≠ a.actor) → s.procs q = none)
    (hm : s.machine.raidMetadata = some m) : (∀ q, s.procs q = none) ∨
      m.stripe = stripeOf cfg.disks b ∧ ∀ q k, s.procs q = some k → k.pc.loading = false := by
  rcases hnow with hidle | ⟨hstripe, hloaded⟩
  · refine .inl fun q => ?_
    by_cases hq : ∀ a ∈ acts, q ≠ a.actor
    · exact hothers q hq
    · push Not at hq
      obtain ⟨a, ha, rfl⟩ := hq
      exact hidle a ha
  · rw [hm, Option.map_some, Option.some_inj, Int.toNat_natCast] at hstripe
    refine .inr ⟨hstripe, fun q k hk => ?_⟩
    by_cases hq : ∀ a ∈ acts, q ≠ a.actor
    · rw [hothers q hq] at hk
      cases hk
    · push Not at hq
      obtain ⟨a, ha, rfl⟩ := hq
      exact hloaded a ha k hk

theorem OrderlyNow.orderly {acts : List Action} {a : Action} (hnow : OrderlyNow cfg acts s a)
    (hothers : ∀ q, (∀ a ∈ acts, q ≠ a.actor) → s.procs q = none) :
    AccessStep a ∧ Orderly cfg s a := by
  cases a with
  | run p => exact ⟨trivial, trivial⟩
  | call p c =>
    cases c with
    | readRaid x data =>
      refine ⟨rfl, fun m w b buf hm hc _ => ?_⟩
      cases w with
      | false =>
        cases hc
        exact MayBegin.orderly hnow hothers hm
      | true => cases hc
    | writeRaid x data =>
      refine ⟨rfl, fun m w b buf hm hc _ => ?_⟩
      cases w with
      | false => cases hc
      | true =>
        cases hc
        exact MayBegin.orderly hnow hothers hm
    | _ => exact hnow.elim

/-- A run that was found to be in order, step by step. -/
theorem logReach_of_orderlyNow {acts : List Action} {M : Machine}
    (hr : Reach (step cfg) (OrderlyNow cfg) (start M) acts s) : ∃ l, l.map Prod.fst = acts ∧
      LogReach (step cfg) (fun s a => AccessStep a ∧ Orderly cfg s a) (start M) l s := by
  induction hr with
  | start => exact ⟨[], rfl, .start⟩
  | next hr hnow hret ih =>
    obtain ⟨l, hl, hreach⟩ := ih
    refine ⟨_, ?_, hreach.next (hnow.orderly fun q hq => idle_of_actor_ne hr hq) hret⟩
    rw [List.map_cons, hl]

/-- Processes `1` and `2` write blocks `0` and `1` of stripe `1`.  The second call begins when the
first has changed its slots and written nothing yet. -/
def overlappingWrites : List Action :=
  .call 1 (.writeRaid 0 (some (bytes 7))) :: List.replicate 6 (.run 1) ++
    .call 2 (.writeRaid 1 (some (bytes 9))) :: List.replicate 4 (.run 2) ++
      List.replicate 4 (.run 1)

theorem accesses_serialisable_overlap : ∃ s₁ l s, l.map Prod.fst = overlappingWrites.reverse ∧
    LogReach (step (smallConfig 3)) (fun s a => AccessStep a ∧ Orderly (smallConfig 3) s a)
      (start s₁) l s ∧ (∀ p, s.procs p = none) ∧
    Serialisable (smallConfig 3) s₁ l s.machine := by
  have hc : ParityConfig (smallConfig 3) .RAID4 := ⟨.inl rfl, by decide, by decide⟩
  obtain ⟨_, ⟨-, rfl⟩, L, m, hL, -⟩ := init_keeps hc blankMachine_blank
  have hreach : Reach (step (smallConfig 3)) (OrderlyNow (smallConfig 3))
      (start (exec (smallConfig 3) (.initRaid RaidType.RAID4.code) blankMachine).state)
      overlappingWrites.reverse _ := .of_allows_start (by decide +kernel)
  have hidle := idle_of_actors hreach
    (show ∀ a ∈ overlappingWrites.reverse, a.actor ∈ [1, 2] by decide) (by decide +kernel)
  obtain ⟨l, hl, hlog⟩ := logReach_of_orderlyNow hreach
  exact ⟨_, l, _, hl, hlog, hidle, accesses_serialisable hc _ L m hL l _ hlog hidle⟩

/-! ### Switching the stripe -/

/-- Process `1` writes block `0` of stripe `1` and has written its parity block when process `2`
reads block `2` of stripe `2`. -/
def stripeSwitch : List Action :=
  .call 1 (.writeRaid 0 (some (bytes 7))) :: List.replicate 7 (.run 1) ++
    .call 2 (.readRaid 2 (some (bytes 0))) :: List.replicate 6 (.run 2) ++
      List.replicate 3 (.run 1)

/-- **A read loses the data of a write**: process `1` finishes its write with the stripe that is
cached then, and leaves `0`, `0` and `7` on the disks of stripe `1`. -/
theorem switch_loses_write :
    ¬ AlwaysSerialisable (smallConfig 3) .RAID4 fun _ a => AccessStep a := by
  intro hser
  have hc : ParityConfig (smallConfig 3) .RAID4 := ⟨.inl rfl, by decide, by decide⟩
  obtain ⟨_, ⟨-, rfl⟩, L, m, hL, -⟩ := init_keeps hc blankMachine_blank
  have hreach : Reach (step (smallConfig 3)) (fun _ _ a => AccessStep a)
      (start (exec (smallConfig 3) (.initRaid RaidType.RAID4.code) blankMachine).state)
      stripeSwitch.reverse _ := .of_allows_start (by decide +kernel)
  have hidle := idle_of_actors hreach (show ∀ a ∈ stripeSwitch.reverse, a.actor ∈ [1, 2] by decide)
    (by decide +kernel)
  obtain ⟨l, hl⟩ := LogReach.of_reach hreach
  have hsum := congrFun ((hser _ L m hL l _ hl hidle).parity 1 le_rfl) 0
  exact absurd hsum (by decide +kernel)

end RaidSystem.Concurrent
