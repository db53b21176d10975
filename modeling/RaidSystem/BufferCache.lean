/-
**The buffer cache: `kernel/bio.c`.**

The buffers form a ring around `bcache.head`, in the order in which they were used last.  `bget`
looks through the ring for the block it wants; if there is none, it looks through it the other way
round for a buffer without users, and reassigns that one.  The spin lock of the cache makes each of
these searches one step; the sleep lock of a buffer is taken after it, and other processes may run
in between.

Main definitions:

* `State`, `binit` — the ring, the fields of the buffers, and what the processes are doing;
* `bget`, `step` — the searches, and the steps of `bread`, `brelse`, `bpin` and `bunpin`;
* `RingSound`, `Unique` — the ring contains every buffer once, and no two buffers carry the same
  block;
* `Counted` — the counter of a buffer is the number of those who hold it, wait for it or pin it.

Main results:

* `bget_returns_or_full` — the searches end: `bget` returns, or all buffers are in use;
* `buffer_cache_sound` — **one copy per block**: in every state that is reached the ring is intact,
  no two buffers carry one block, and a buffer with users is not reassigned;
* `references_exact` — with matching pins and unpins, the counters are the numbers of references,
  and `bget` panics only if all buffers are in use.
-/

import Mathlib.Algebra.Group.Nat.Defs
import Mathlib.Data.Fintype.Card
import Mathlib.Data.List.FinRange
import RaidSystem.LinkedRing
import RaidSystem.Reach

set_option autoImplicit false

namespace RaidSystem.BufferCache

open Prog Function

/-! ### The cache and the processes -/

/-- A pointer to one of the `n` buffers, or to `bcache.head`. -/
abbrev Node (n : ℕ) := Option (Fin n)

/-- Where a process is: outside of the functions of the cache, in `acquiresleep(&b->lock)`, in the
transfer that fills `b`, or between the two halves of `brelse(b)`. -/
inductive Local (n : ℕ)
  | running
  | waiting (b : Fin n)
  | loading (b : Fin n)
  | releasing (b : Fin n)
deriving DecidableEq

/-- `bcache` for `n` buffers, where `refcnt` is of type `uint`; who holds the sleep locks; and the
processes. -/
structure State (n : ℕ) where
  links : Links (Node n)
  dev : Fin n → ℕ
  blockno : Fin n → ℕ
  refcnt : Fin n → ℕ
  valid : Fin n → Bool
  lock : Fin n → Option ℕ
  procs : ℕ → Local n

/-- The panics of `bio.c`; a search that does not end; and steps of processes that are elsewhere. -/
inductive Fault
  | noBuffers
  | notHeld
  | looping
  | elsewhere
deriving DecidableEq

abbrev Kernel (n : ℕ) := Prog (State n) Unit Fault

variable {n : ℕ}

/-- The loop of `binit` puts the buffers behind the head one after the other. -/
def binit (s : State n) : State n :=
  { s with
    links := (List.finRange n).foldl (fun k b => k.pushFront none (some b))
      ⟨update s.links.next none none, update s.links.prev none none⟩
    lock := fun _ => none }

/-- `b->refcnt++`. -/
def State.ref (s : State n) (b : Fin n) : State n :=
  { s with refcnt := update s.refcnt b ((s.refcnt b + 1) % 2 ^ 32) }

/-- `b->refcnt--`. -/
def State.unref (s : State n) (b : Fin n) : State n :=
  { s with refcnt := update s.refcnt b ((s.refcnt b + (2 ^ 32 - 1)) % 2 ^ 32) }

/-- The buffer `b` is given to the block `(dev, blockno)`. -/
def State.recycle (s : State n) (b : Fin n) (dev blockno : ℕ) : State n :=
  { s with
    dev := update s.dev b dev
    blockno := update s.blockno b blockno
    valid := update s.valid b false
    refcnt := update s.refcnt b 1 }

/-- The buffer `b` becomes the most recently used. -/
def State.touch (s : State n) (b : Fin n) : State n :=
  { s with links := (s.links.unlink (some b)).pushFront none (some b) }

def State.move (s : State n) (p : ℕ) (l : Local n) : State n :=
  { s with procs := update s.procs p l }

/-- `b->dev == dev && b->blockno == blockno`. -/
def State.carries (s : State n) (dev blockno : ℕ) : Node n → Bool
  | some b => s.dev b = dev ∧ s.blockno b = blockno
  | none => false

/-- `b->refcnt == 0`. -/
def State.unused (s : State n) : Node n → Bool
  | some b => s.refcnt b = 0
  | none => false

/-! ### The functions -/

/-- The second search of `bget`. -/
def bgetRecycle (dev blockno : ℕ) : Kernel n (Fin n) := do
  let s ← get
  match scan s.links.prev none s.unused (n + 1) (s.links.prev none) with
  | .found (some b) => do
    modify fun s => s.recycle b dev blockno
    pure b
  | .looping => fail .looping
  | _ => fail .noBuffers

/-- `bget` up to the release of the lock of the cache. -/
def bget (dev blockno : ℕ) : Kernel n (Fin n) := do
  let s ← get
  match scan s.links.next none (s.carries dev blockno) (n + 1) (s.links.next none) with
  | .found (some b) => do
    modify fun s => s.ref b
    pure b
  | .looping => fail .looping
  | _ => bgetRecycle dev blockno

/-- The part of `brelse` under the lock of the cache. -/
def brelseRef (b : Fin n) : Kernel n Unit := do
  modify fun s => s.unref b
  let s ← get
  if s.refcnt b = 0 then modify fun s => s.touch b else pure ()

inductive Action (n : ℕ)
  | bget (p dev blockno : ℕ)
  | acquiresleep (p : ℕ)
  | loaded (p : ℕ)
  | releasesleep (p : ℕ) (b : Fin n)
  | brelse (p : ℕ)
  | bpin (b : Fin n)
  | bunpin (b : Fin n)
deriving DecidableEq

/-- Steps of the processes.  `bread` is `bget`, `acquiresleep` and, if the buffer is not valid, the
transfer; `brelse` is `releasesleep` and then the part under the lock of the cache. -/
def step : Action n → Kernel n Unit
  | .bget p dev blockno => do
    let s ← get
    if s.procs p = .running then do
      let b ← bget dev blockno
      modify fun s => s.move p (.waiting b)
    else fail .elsewhere
  | .acquiresleep p => do
    let s ← get
    match s.procs p with
    | .waiting b =>
      if s.lock b = none then
        modify fun s => State.move { s with lock := update s.lock b (some p) } p
          (if s.valid b then .running else .loading b)
      else fail .elsewhere
    | _ => fail .elsewhere
  | .loaded p => do
    let s ← get
    match s.procs p with
    | .loading b =>
      modify fun s => State.move { s with valid := update s.valid b true } p .running
    | _ => fail .elsewhere
  | .releasesleep p b => do
    let s ← get
    if s.procs p ≠ .running then fail .elsewhere
    else if s.lock b ≠ some p then fail .notHeld
    else modify fun s => State.move { s with lock := update s.lock b none } p (.releasing b)
  | .brelse p => do
    let s ← get
    match s.procs p with
    | .releasing b => do
      brelseRef b
      modify fun s => s.move p .running
    | _ => fail .elsewhere
  | .bpin b => modify fun s => s.ref b
  | .bunpin b => modify fun s => s.unref b

/-! ### What states should satisfy -/

/-- The static data before `binit`: all bytes are zero. -/
structure Zeroed (s : State n) : Prop where
  dev : ∀ b, s.dev b = 0
  blockno : ∀ b, s.blockno b = 0
  refcnt : ∀ b, s.refcnt b = 0
  valid : ∀ b, s.valid b = false
  procs : ∀ p, s.procs p = .running

/-- Starting at `bcache.head` and following the next pointers one meets every buffer once and comes
back; and the previous pointers are the inverse of the next pointers. -/
structure RingSound (s : State n) : Prop where
  cycle : ∃ l : List (Fin n), l.Nodup ∧ (∀ b, b ∈ l) ∧ s.links.IsRing none (l.map some)
  prev_next : ∀ x, s.links.prev (s.links.next x) = x
  next_prev : ∀ x, s.links.next (s.links.prev x) = x

/-- At most one buffer carries a given block of a device other than device `0`. -/
def Unique (s : State n) : Prop :=
  ∀ b c, 1 ≤ s.dev b → s.dev b = s.dev c → s.blockno b = s.blockno c → b = c

/-- Buffers that are referenced in `s` carry the same block in `s'`. -/
def Keeps (s s' : State n) : Prop :=
  ∀ b, 0 < s.refcnt b → s'.dev b = s.dev b ∧ s'.blockno b = s.blockno b

/-- In every state that a run from `binit` leads to, the ring is sound, buffers are unique, and no
step reassigns a buffer that is referenced. -/
def CacheSound (n : ℕ) : Prop :=
  ∀ z : State n, Zeroed z → ∀ h s, Reach step (fun _ _ _ => True) (binit z) h s →
    RingSound s ∧ Unique s ∧ ∀ a u s', Returns (step a) s u s' → Keeps s s'

/-! ### The searches -/

section Searches

variable {s s' : State n} {b : Fin n} {dev blockno : ℕ} {l : List (Fin n)}

theorem length_le (hnodup : l.Nodup) : (l.map some).length < n + 1 := by
  have := hnodup.length_le_card
  rw [Fintype.card_fin] at this
  rw [List.length_map]
  omega

theorem RingSound.of_isRing (hall : ∀ b, b ∈ l) (h : s.links.IsRing none (l.map some)) :
    RingSound s := by
  have hmem : ∀ x : Node n, x ∈ none :: l.map some := by
    intro x
    cases x with
    | none => exact List.mem_cons_self
    | some b => exact List.mem_cons_of_mem _ (List.mem_map_of_mem (hall b))
  have hnodup : l.Nodup := (List.nodup_cons.1 h.nodup).2.of_map _
  exact ⟨⟨l, hnodup, hall, h⟩, fun x => h.left_inverse (hmem x), fun x => h.right_inverse (hmem x)⟩

/-- The second search gives away a buffer without users. -/
theorem returns_bgetRecycle (hs : RingSound s) (hr : Returns (bgetRecycle dev blockno) s b s') :
    s.refcnt b = 0 ∧ s' = s.recycle b dev blockno := by
  obtain ⟨l, hnodup, -, hring⟩ := hs.cycle
  rw [bgetRecycle, get_returns.bind_iff, hring.scan_prev (length_le hnodup)] at hr
  cases hfind : (l.map some).reverse.find? s.unused with
  | none =>
    rw [hfind] at hr
    exact absurd hr not_returns_fail
  | some x =>
    rw [hfind] at hr
    cases x with
    | none => exact absurd hr not_returns_fail
    | some c =>
      obtain ⟨_, s₁, hmod, hpure⟩ := returns_bind.1 hr
      obtain ⟨rfl, rfl⟩ := returns_pure.1 hpure
      have hunused := List.find?_some hfind
      exact ⟨of_decide_eq_true hunused, returns_modify.1 hmod⟩

/-- **What `bget` does**: it takes the buffer that carries the block, or, if there is none, gives it
a buffer without users. -/
theorem returns_bget (hs : RingSound s) (hr : Returns (bget dev blockno) s b s') :
    (s.dev b = dev ∧ s.blockno b = blockno ∧ s' = s.ref b) ∨
      ((∀ c, ¬ (s.dev c = dev ∧ s.blockno c = blockno)) ∧ s.refcnt b = 0 ∧
        s' = s.recycle b dev blockno) := by
  obtain ⟨l, hnodup, hall, hring⟩ := hs.cycle
  rw [bget, get_returns.bind_iff, hring.scan_next (length_le hnodup)] at hr
  cases hfind : (l.map some).find? (s.carries dev blockno) with
  | none =>
    rw [hfind] at hr
    refine .inr ⟨fun c hc => ?_, returns_bgetRecycle hs hr⟩
    have hmem : some c ∈ l.map some := List.mem_map_of_mem (hall c)
    exact List.find?_eq_none.1 hfind (some c) hmem (decide_eq_true hc)
  | some x =>
    rw [hfind] at hr
    have hcarries := List.find?_some hfind
    cases x with
    | none => cases hcarries
    | some c =>
      obtain ⟨_, s₁, hmod, hpure⟩ := returns_bind.1 hr
      obtain ⟨rfl, rfl⟩ := returns_pure.1 hpure
      obtain ⟨hdev, hblockno⟩ : s.dev b = dev ∧ s.blockno b = blockno := of_decide_eq_true hcarries
      exact .inl ⟨hdev, hblockno, returns_modify.1 hmod⟩

/-- **The searches end**: `bget` returns a buffer, or panics because all of them are in use. -/
theorem bget_returns_or_full (hs : RingSound s) (dev blockno : ℕ) :
    (∃ b s', Returns (bget dev blockno) s b s') ∨
      Fails (bget dev blockno) s .noBuffers ∧ ∀ b, s.refcnt b ≠ 0 := by
  obtain ⟨l, hnodup, hall, hring⟩ := hs.cycle
  have hrecycle : (∃ b s', Returns (bgetRecycle dev blockno) s b s') ∨
      Fails (bgetRecycle dev blockno) s .noBuffers ∧ ∀ b, s.refcnt b ≠ 0 := by
    simp only [bgetRecycle, get_returns.bind_iff,
      get_returns.fails_bind_iff, hring.scan_prev (length_le hnodup)]
    cases hfind : (l.map some).reverse.find? s.unused with
    | none =>
      refine .inr ⟨fails_fail.2 rfl, fun b hb => ?_⟩
      have hmem : some b ∈ (l.map some).reverse := by simp [hall b]
      exact List.find?_eq_none.1 hfind (some b) hmem (decide_eq_true hb)
    | some x =>
      cases x with
      | none => cases List.find?_some hfind
      | some b =>
        exact .inl ⟨b, _, returns_bind.2 ⟨(), _, returns_modify.2 rfl, returns_pure.2 ⟨rfl, rfl⟩⟩⟩
  simp only [bget, get_returns.bind_iff, get_returns.fails_bind_iff,
    hring.scan_next (length_le hnodup)]
  cases hfind : (l.map some).find? (s.carries dev blockno) with
  | none => exact hrecycle
  | some x =>
    cases x with
    | none => cases List.find?_some hfind
    | some b =>
      exact .inl ⟨b, _, returns_bind.2 ⟨(), _, returns_modify.2 rfl, returns_pure.2 ⟨rfl, rfl⟩⟩⟩

end Searches

/-! ### Steps -/

section Steps

variable {s s' : State n} {a : Action n} {u : Unit}

theorem returns_step_bget {p dev blockno : ℕ} :
    Returns (step (.bget p dev blockno)) s u s' ↔ s.procs p = .running ∧
      ∃ b s₁, Returns (bget dev blockno) s b s₁ ∧ s' = s₁.move p (.waiting b) := by
  rw [step, get_returns.bind_iff, returns_ite]
  simp

theorem returns_step_acquiresleep {p : ℕ} : Returns (step (.acquiresleep p)) s u s' ↔
    ∃ b, s.procs p = .waiting b ∧ s.lock b = none ∧
      s' = State.move { s with lock := update s.lock b (some p) } p
        (if s.valid b then .running else .loading b) := by
  rw [step, get_returns.bind_iff]
  cases hp : s.procs p with
  | waiting b => simp [returns_ite]
  | _ => simp

theorem returns_step_loaded {p : ℕ} : Returns (step (.loaded p)) s u s' ↔
    ∃ b, s.procs p = .loading b ∧
      s' = State.move { s with valid := update s.valid b true } p .running := by
  rw [step, get_returns.bind_iff]
  cases hp : s.procs p with
  | loading b => simp
  | _ => simp

theorem returns_step_releasesleep {p : ℕ} {b : Fin n} :
    Returns (step (.releasesleep p b)) s u s' ↔ s.procs p = .running ∧ s.lock b = some p ∧
      s' = State.move { s with lock := update s.lock b none } p (.releasing b) := by
  rw [step, get_returns.bind_iff, returns_ite, returns_ite]
  simp

theorem returns_step_brelse {p : ℕ} : Returns (step (.brelse p)) s u s' ↔
    ∃ b, s.procs p = .releasing b ∧
      s' = (if (s.unref b).refcnt b = 0 then (s.unref b).touch b else s.unref b).move p
        .running := by
  rw [step, get_returns.bind_iff]
  cases hp : s.procs p with
  | releasing b =>
    simp only [brelseRef, returns_bind, returns_modify, returns_get, returns_ite, returns_pure,
      Local.releasing.injEq, exists_eq_left']
    by_cases hzero : (s.unref b).refcnt b = 0
    · simp [hzero]
    · simp [hzero]
  | _ => simp

/-- **All that a step can do** to the ring and to what the buffers carry: nothing; move a buffer to
the front; or give a buffer without users to a block that no buffer carries. -/
inductive Effect (s s' : State n) : Prop
  | stays : s'.links = s.links → s'.dev = s.dev → s'.blockno = s.blockno → Effect s s'
  | touch (b : Fin n) : s'.links = (s.touch b).links → s'.dev = s.dev → s'.blockno = s.blockno →
      Effect s s'
  | recycle (b : Fin n) (dev blockno : ℕ) : (∀ c, ¬ (s.dev c = dev ∧ s.blockno c = blockno)) →
      s.refcnt b = 0 → s'.links = s.links → s'.dev = update s.dev b dev →
      s'.blockno = update s.blockno b blockno → Effect s s'

theorem effect_of_step (hs : RingSound s) (hr : Returns (step a) s u s') : Effect s s' := by
  cases a with
  | bget p dev blockno =>
    obtain ⟨-, b, s₁, hget, rfl⟩ := returns_step_bget.1 hr
    rcases returns_bget hs hget with ⟨-, -, rfl⟩ | ⟨hnone, hzero, rfl⟩
    · exact .stays rfl rfl rfl
    · exact .recycle b dev blockno hnone hzero rfl rfl rfl
  | acquiresleep p =>
    obtain ⟨b, -, -, rfl⟩ := returns_step_acquiresleep.1 hr
    exact .stays rfl rfl rfl
  | loaded p =>
    obtain ⟨b, -, rfl⟩ := returns_step_loaded.1 hr
    exact .stays rfl rfl rfl
  | releasesleep p b =>
    obtain ⟨-, -, rfl⟩ := returns_step_releasesleep.1 hr
    exact .stays rfl rfl rfl
  | brelse p =>
    obtain ⟨b, -, rfl⟩ := returns_step_brelse.1 hr
    split_ifs
    · exact .touch b rfl rfl rfl
    · exact .stays rfl rfl rfl
  | bpin b =>
    obtain rfl := returns_modify.1 hr
    exact .stays rfl rfl rfl
  | bunpin b =>
    obtain rfl := returns_modify.1 hr
    exact .stays rfl rfl rfl

/-- A buffer that becomes the most recently used stays in the ring. -/
theorem Effect.ringSound (hs : RingSound s) (h : Effect s s') : RingSound s' := by
  obtain ⟨l, hnodup, hall, hring⟩ := hs.cycle
  cases h with
  | stays hlinks _ _ => exact .of_isRing hall (hlinks ▸ hring)
  | recycle b dev blockno _ _ hlinks _ _ => exact .of_isRing hall (hlinks ▸ hring)
  | touch b hlinks _ _ =>
    obtain ⟨l₁, l₂, rfl⟩ := List.append_of_mem (hall b)
    rw [List.map_append, List.map_cons] at hring
    have hout : some b ∉ none :: (l₁.map some ++ l₂.map some) := by
      have hmid := (List.nodup_middle.1 (List.nodup_cons.1 hring.nodup).2)
      rw [List.mem_cons, not_or]
      exact ⟨nofun, (List.nodup_cons.1 hmid).1⟩
    have hring' := hring.unlink.pushFront hout
    rw [← List.map_append, ← List.map_cons] at hring'
    refine .of_isRing (l := b :: (l₁ ++ l₂)) ?_ (hlinks ▸ hring')
    intro c
    have := hall c
    simp only [List.mem_append, List.mem_cons] at this ⊢
    tauto

/-- Only a block that no buffer carries gets a buffer. -/
theorem Effect.unique (hu : Unique s) (h : Effect s s') : Unique s' := by
  cases h with
  | stays _ hdev hblockno =>
    unfold Unique
    rwa [hdev, hblockno]
  | touch b _ hdev hblockno =>
    unfold Unique
    rwa [hdev, hblockno]
  | recycle b dev blockno hnone _ _ hdev hblockno =>
    unfold Unique
    rw [hdev, hblockno]
    intro c d hpos hd hb
    rcases eq_or_ne c b with rfl | hc
    · rcases eq_or_ne d c with rfl | hne
      · rfl
      · rw [update_self, update_of_ne hne] at hd hb
        exact absurd ⟨hd.symm, hb.symm⟩ (hnone d)
    · rw [update_of_ne hc] at hpos hd hb
      rcases eq_or_ne d b with rfl | hne
      · rw [update_self] at hd hb
        exact absurd ⟨hd, hb⟩ (hnone c)
      · rw [update_of_ne hne] at hd hb
        exact hu c d hpos hd hb

theorem Effect.keeps (h : Effect s s') : Keeps s s' := by
  intro c hc
  cases h with
  | stays _ hdev hblockno => exact ⟨congrFun hdev c, congrFun hblockno c⟩
  | touch b _ hdev hblockno => exact ⟨congrFun hdev c, congrFun hblockno c⟩
  | recycle b dev blockno _ hzero _ hdev hblockno =>
    have hne : c ≠ b := by
      rintro rfl
      omega
    rw [hdev, hblockno, update_of_ne hne, update_of_ne hne]
    exact ⟨rfl, rfl⟩

end Steps

/-! ### Runs -/

/-- **The loop of `binit`** makes a ring of all buffers. -/
theorem ringSound_binit (z : State n) : RingSound (binit z) := by
  have hempty : (Links.mk (update z.links.next none none)
      (update z.links.prev none none)).IsRing none [] :=
    .of_self (update_self none none z.links.next) (update_self none none z.links.prev)
  have hall : (none :: ((List.finRange n).map some ++ [])).Nodup := by
    rw [List.append_nil, List.nodup_cons]
    exact ⟨by simp, (List.nodup_finRange n).map (Option.some_injective _)⟩
  have hring := hempty.foldl_pushFront hall
  rw [List.foldl_map, List.append_nil, ← List.map_reverse] at hring
  exact .of_isRing (fun b => by simp) hring

/-- **One copy per block.** -/
theorem buffer_cache_sound (n : ℕ) : CacheSound n := by
  intro z hz h s hreach
  have hI : RingSound s ∧ Unique s := by
    refine hreach.inv (fun _ s => RingSound s ∧ Unique s) ⟨ringSound_binit z, ?_⟩ ?_
    · intro b c hpos _ _
      have hzero : (binit z).dev b = 0 := hz.dev b
      omega
    · rintro h s a u s' ⟨hring, huniq⟩ - hret
      have heffect := effect_of_step hring hret
      exact ⟨heffect.ringSound hring, heffect.unique huniq⟩
  exact ⟨hI.1, hI.2, fun a u s' hret => (effect_of_step hI.1 hret).keeps⟩

/-- A cache with two buffers, before `binit`. -/
def twoBuffers : State 2 where
  links := ⟨id, id⟩
  dev := fun _ => 0
  blockno := fun _ => 0
  refcnt := fun _ => 0
  valid := fun _ => false
  lock := fun _ => none
  procs := fun _ => .running

theorem zeroed_twoBuffers : Zeroed twoBuffers :=
  ⟨fun _ => rfl, fun _ => rfl, fun _ => rfl, fun _ => rfl, fun _ => rfl⟩

/-- Processes `0` and `1` want block `5`, and process `2` block `7`.  Process `0` reads its block,
pins it, and gives it back. -/
def sharing : List (Action 2) :=
  [.bget 0 1 5, .bget 1 1 5, .acquiresleep 0, .loaded 0, .bget 2 1 7, .bpin 0, .releasesleep 0 0,
    .brelse 0]

/-- After the run above process `1` waits for buffer `0`, and process `2` for buffer `1`. -/
theorem buffer_cache_sound_two :
    RingSound (Reach.after step sharing (binit twoBuffers)) ∧
    Unique (Reach.after step sharing (binit twoBuffers)) ∧
    ([0, 1].map fun b => ((Reach.after step sharing (binit twoBuffers)).dev b,
      (Reach.after step sharing (binit twoBuffers)).blockno b,
      (Reach.after step sharing (binit twoBuffers)).refcnt b)) = [(1, 5, 2), (1, 7, 1)] := by
  obtain ⟨hring, hunique, -⟩ := buffer_cache_sound 2 twoBuffers zeroed_twoBuffers sharing.reverse _
    (.of_allows_start (by decide +kernel))
  exact ⟨hring, hunique, by decide +kernel⟩

/-! ### References -/

/-- The process waits for `b` or is about to give up its reference to it. -/
def Local.Uses (l : Local n) (b : Fin n) : Prop := l = .waiting b ∨ l = .releasing b

instance (l : Local n) (b : Fin n) : Decidable (l.Uses b) := inferInstanceAs (Decidable (_ ∨ _))

@[simp] theorem not_uses_running (b : Fin n) : ¬ (Local.running).Uses b := by simp [Local.Uses]

@[simp] theorem not_uses_loading (b c : Fin n) : ¬ (Local.loading b).Uses c := by simp [Local.Uses]

@[simp] theorem uses_waiting (b c : Fin n) : (Local.waiting b).Uses c ↔ b = c := by
  simp [Local.Uses]

@[simp] theorem uses_releasing (b c : Fin n) : (Local.releasing b).Uses c ↔ b = c := by
  simp [Local.Uses]

/-- How often `b` was pinned and not unpinned. -/
def pinned (b : Fin n) : List (Action n) → ℕ
  | [] => 0
  | .bpin c :: h => if c = b then pinned b h + 1 else pinned b h
  | .bunpin c :: h => if c = b then pinned b h - 1 else pinned b h
  | _ :: h => pinned b h

/-- A buffer is unpinned only after it was pinned, and no counter is about to overflow. -/
def Disciplined (h : List (Action n)) (s : State n) (a : Action n) : Prop :=
  (∀ b, s.refcnt b + 1 < 2 ^ 32) ∧ ∀ b, a = .bunpin b → 0 < pinned b h

/-- The holder of the lock of `b` counts for one. -/
def State.holders (s : State n) (b : Fin n) : ℕ := if s.lock b = none then 0 else 1

/-- The counter of a buffer is the number of its references: that of the process which holds it,
those of the processes in `W b`, and the pins. -/
structure Counted (h : List (Action n)) (s : State n) (W : Fin n → Finset ℕ) : Prop where
  mem : ∀ b p, p ∈ W b ↔ (s.procs p).Uses b
  refcnt : ∀ b, s.refcnt b = s.holders b + (W b).card + pinned b h

section References

variable {s s' : State n} {h : List (Action n)} {W : Fin n → Finset ℕ} {a : Action n} {u : Unit}
  {p : ℕ}

/-- The users after process `p` went to `l`. -/
def moved (W : Fin n → Finset ℕ) (p : ℕ) (l : Local n) (b : Fin n) : Finset ℕ :=
  if l.Uses b then insert p (W b) else (W b).erase p

theorem mem_moved (hW : ∀ b p, p ∈ W b ↔ (s.procs p).Uses b) (l : Local n) (b : Fin n) (q : ℕ) :
    q ∈ moved W p l b ↔ ((s.move p l).procs q).Uses b := by
  unfold moved State.move
  rcases eq_or_ne q p with rfl | hq
  · split_ifs with hl <;> simp [hl]
  · split_ifs with hl <;> simp [hq, hW]

/-- A process that moves takes its reference along. -/
theorem card_moved (hW : ∀ b p, p ∈ W b ↔ (s.procs p).Uses b) (l : Local n) (b : Fin n) :
    (moved W p l b).card + (if (s.procs p).Uses b then 1 else 0) =
      (W b).card + if l.Uses b then 1 else 0 := by
  have hp := hW b p
  unfold moved
  split_ifs with hl hold hold
  · rw [Finset.insert_eq_of_mem (hp.2 hold)]
  · rw [Finset.card_insert_of_notMem (mt hp.1 hold), Nat.add_zero]
  · rw [Finset.card_erase_add_one (hp.2 hold), Nat.add_zero]
  · rw [Finset.erase_eq_of_notMem (mt hp.1 hold)]

theorem ref_refcnt {b : Fin n} (hlt : s.refcnt b + 1 < 2 ^ 32) (c : Fin n) :
    (s.ref b).refcnt c = s.refcnt c + if b = c then 1 else 0 := by
  unfold State.ref
  rcases eq_or_ne b c with rfl | hc
  · simp only [update_self, if_true, Nat.mod_eq_of_lt hlt]
  · simp [hc, Ne.symm hc]

theorem unref_refcnt {b : Fin n} (hpos : 0 < s.refcnt b) (hlt : s.refcnt b + 1 < 2 ^ 32)
    (c : Fin n) :
    (s.unref b).refcnt c + (if b = c then 1 else 0) = s.refcnt c := by
  unfold State.unref
  rcases eq_or_ne b c with rfl | hc
  · have hmod : (s.refcnt b + (2 ^ 32 - 1)) % 2 ^ 32 = s.refcnt b - 1 := by omega
    dsimp only
    rw [update_self, hmod, if_pos rfl]
    omega
  · simp [hc, Ne.symm hc]

theorem holders_lock {b : Fin n} {o : Option ℕ} (c : Fin n) :
    State.holders { s with lock := update s.lock b o } c =
      if b = c then (if o = none then 0 else 1) else s.holders c := by
  unfold State.holders
  rcases eq_or_ne b c with rfl | hc
  · simp
  · simp [hc, Ne.symm hc]

/-- A process moves, and the counters and the locks change to match. -/
theorem Counted.move {s₁ : State n} {l : Local n} (hC : Counted h s W) (hprocs : s₁.procs = s.procs)
    (hpins : ∀ c, pinned c (a :: h) = pinned c h)
    (hbalance : ∀ c, s₁.refcnt c + s.holders c + (if (s.procs p).Uses c then 1 else 0) =
      s.refcnt c + s₁.holders c + if l.Uses c then 1 else 0) :
    Counted (a :: h) (s₁.move p l) (moved W p l) := by
  have hmem : ∀ c q, q ∈ W c ↔ (s₁.procs q).Uses c := by
    rw [hprocs]
    exact hC.mem
  refine ⟨fun c q => mem_moved hmem l c q, fun c => ?_⟩
  have hcard := card_moved (p := p) hC.mem l c
  have hold := hC.refcnt c
  have hnew := hbalance c
  rw [hpins c]
  change s₁.refcnt c = s₁.holders c + _ + _
  omega

/-- **Every step keeps the counters right.** -/
theorem Counted.step (hC : Counted h s W) (hs : RingSound s) (hok : Disciplined h s a)
    (hr : Returns (BufferCache.step a) s u s') : ∃ W', Counted (a :: h) s' W' := by
  obtain ⟨hsmall, hunpin⟩ := hok
  cases a with
  | bget p dev blockno =>
    obtain ⟨hp, b, s₁, hget, rfl⟩ := returns_step_bget.1 hr
    rcases returns_bget hs hget with ⟨-, -, rfl⟩ | ⟨-, hzero, rfl⟩
    · refine ⟨_, hC.move rfl (fun _ => rfl) fun c => ?_⟩
      rw [ref_refcnt (hsmall b), hp]
      simp only [not_uses_running, uses_waiting, if_false]
      change _ + s.holders c + 0 = _ + s.holders c + _
      omega
    · refine ⟨_, hC.move rfl (fun _ => rfl) fun c => ?_⟩
      rw [hp]
      simp only [not_uses_running, uses_waiting, if_false]
      change update s.refcnt b 1 c + s.holders c + 0 = _ + s.holders c + _
      rcases eq_or_ne b c with rfl | hc
      · rw [update_self, hzero, if_pos rfl]
        omega
      · rw [update_of_ne (Ne.symm hc), if_neg hc]
  | acquiresleep p =>
    obtain ⟨b, hp, hfree, rfl⟩ := returns_step_acquiresleep.1 hr
    refine ⟨_, hC.move rfl (fun _ => rfl) fun c => ?_⟩
    rw [hp, holders_lock]
    have hnone : ¬ (if s.valid b then Local.running else .loading b).Uses c := by
      split_ifs <;> simp
    rw [if_neg hnone]
    simp only [uses_waiting]
    rcases eq_or_ne b c with rfl | hc
    · simp [State.holders, hfree]
    · simp [hc]
  | loaded p =>
    obtain ⟨b, hp, rfl⟩ := returns_step_loaded.1 hr
    refine ⟨_, hC.move rfl (fun _ => rfl) fun c => ?_⟩
    rw [hp]
    simp only [not_uses_running, not_uses_loading, if_false]
    rfl
  | releasesleep p b =>
    obtain ⟨hp, hheld, rfl⟩ := returns_step_releasesleep.1 hr
    refine ⟨_, hC.move rfl (fun _ => rfl) fun c => ?_⟩
    rw [hp, holders_lock]
    simp only [not_uses_running, uses_releasing, if_false]
    rcases eq_or_ne b c with rfl | hc
    · simp [State.holders, hheld]
    · simp [hc]
  | brelse p =>
    obtain ⟨b, hp, rfl⟩ := returns_step_brelse.1 hr
    have hpos : 0 < s.refcnt b := by
      have hmem : p ∈ W b := (hC.mem b p).2 (by rw [hp]; simp)
      have := Finset.card_pos.2 ⟨p, hmem⟩
      have := hC.refcnt b
      omega
    refine ⟨_, hC.move ?_ (fun _ => rfl) fun c => ?_⟩
    · split_ifs <;> rfl
    · have hunref := unref_refcnt hpos (hsmall b) c
      have hsame : ∀ t : State n, t.refcnt = (s.unref b).refcnt → t.lock = s.lock →
          t.refcnt c + s.holders c + (if (s.procs p).Uses c then 1 else 0) =
            s.refcnt c + t.holders c + if (Local.running).Uses c then 1 else 0 := by
        intro t href hlock
        rw [hp, href, show t.holders c = s.holders c by rw [State.holders, hlock]; rfl]
        simp only [not_uses_running, uses_releasing, if_false]
        omega
      by_cases hzero : (s.unref b).refcnt b = 0
      · rw [if_pos hzero]
        exact hsame _ rfl rfl
      · rw [if_neg hzero]
        exact hsame _ rfl rfl
  | bpin b =>
    obtain rfl := returns_modify.1 hr
    refine ⟨W, hC.mem, fun c => ?_⟩
    have hcount := hC.refcnt c
    rw [ref_refcnt (hsmall b), pinned]
    change _ = s.holders c + _ + _
    split_ifs <;> omega
  | bunpin b =>
    obtain rfl := returns_modify.1 hr
    refine ⟨W, hC.mem, fun c => ?_⟩
    have hpin := hunpin b rfl
    have hcount := hC.refcnt c
    have hunref := unref_refcnt (s := s) (by rw [hC.refcnt b]; omega) (hsmall b) c
    rw [pinned]
    change _ = s.holders c + _ + _
    rcases eq_or_ne b c with rfl | hc
    · rw [if_pos rfl] at hunref ⊢
      omega
    · rw [if_neg hc] at hunref ⊢
      omega

/-- A process holds `b`, or waits for it, or is about to give it up; or `b` is pinned. -/
def InUse (h : List (Action n)) (s : State n) (b : Fin n) : Prop :=
  s.lock b ≠ none ∨ (∃ p, (s.procs p).Uses b) ∨ 0 < pinned b h

/-- What the references are for: the counters are exact; a buffer in use keeps its block; and `bget`
finds a buffer unless all of them are in use. -/
structure ReferencesExact (h : List (Action n)) (s : State n) : Prop where
  counted : ∃ W, Counted h s W
  kept : ∀ b, InUse h s b → ∀ a u s', Returns (step a) s u s' →
    s'.dev b = s.dev b ∧ s'.blockno b = s.blockno b
  full : ∀ p dev blockno, s.procs p = .running →
    (∃ u s', Returns (step (.bget p dev blockno)) s u s') ∨
    Fails (step (.bget p dev blockno)) s .noBuffers ∧ ∀ b, InUse h s b

theorem Counted.refcnt_ne_zero_iff (hC : Counted h s W) (b : Fin n) :
    s.refcnt b ≠ 0 ↔ InUse h s b := by
  have hcount := hC.refcnt b
  constructor
  · intro hpos
    by_cases hlock : s.lock b = none
    · have hnone : s.holders b = 0 := if_pos hlock
      rcases Nat.eq_zero_or_pos (W b).card with hcard | hcard
      · exact .inr (.inr (by omega))
      · obtain ⟨p, hp⟩ := Finset.card_pos.1 hcard
        exact .inr (.inl ⟨p, (hC.mem b p).1 hp⟩)
    · exact .inl hlock
  · rintro (hlock | ⟨p, huses⟩ | hpin)
    · have hone : s.holders b = 1 := if_neg hlock
      omega
    · have := Finset.card_pos.2 ⟨p, (hC.mem b p).2 huses⟩
      omega
    · omega

/-- **The references are exact**, in runs in which pins and unpins match and no counter
overflows. -/
theorem references_exact {z : State n} (hz : Zeroed z)
    (hr : Reach BufferCache.step Disciplined (binit z) h s) : ReferencesExact h s := by
  have hI : RingSound s ∧ ∃ W, Counted h s W := by
    refine hr.inv (fun h s => RingSound s ∧ ∃ W, Counted h s W) ⟨ringSound_binit z, fun _ => ∅, ?_,
      ?_⟩ ?_
    · intro b p
      have hrun : (binit z).procs p = .running := hz.procs p
      rw [hrun]
      simp
    · exact fun b => hz.refcnt b
    · rintro h s a u s' ⟨hring, W, hC⟩ hok hret
      exact ⟨(effect_of_step hring hret).ringSound hring, hC.step hring hok hret⟩
  obtain ⟨hring, W, hC⟩ := hI
  refine ⟨⟨W, hC⟩, fun b hb a u s' hstep => ?_, fun p dev blockno hp => ?_⟩
  · exact (effect_of_step hring hstep).keeps b (Nat.pos_of_ne_zero ((hC.refcnt_ne_zero_iff b).2 hb))
  · rcases bget_returns_or_full hring dev blockno with ⟨b, s₁, hget⟩ | ⟨hfail, hfull⟩
    · exact .inl ⟨(), _, returns_step_bget.2 ⟨hp, b, s₁, hget, rfl⟩⟩
    · refine .inr ⟨?_, fun b => (hC.refcnt_ne_zero_iff b).1 (hfull b)⟩
      rw [BufferCache.step, get_returns.fails_bind_iff, if_pos hp]
      exact fails_bind.2 (.inl hfail)

instance (h : List (Action n)) (s : State n) (a : Action n) : Decidable (Disciplined h s a) :=
  inferInstanceAs (Decidable (_ ∧ _))

/-- Both buffers are in use: a third block is refused, and block `5` can still be had. -/
theorem references_exact_waiting :
    Reach BufferCache.step Disciplined (binit twoBuffers) sharing.reverse
      (Reach.after BufferCache.step sharing (binit twoBuffers)) ∧
    ReferencesExact sharing.reverse (Reach.after BufferCache.step sharing (binit twoBuffers)) ∧
    Fails (BufferCache.step (.bget 3 1 9)) (Reach.after BufferCache.step sharing (binit twoBuffers))
      .noBuffers ∧
    (BufferCache.step (.bget 3 1 5)
      (Reach.after BufferCache.step sharing (binit twoBuffers))).val.toBool = true := by
  have hr : Reach BufferCache.step Disciplined (binit twoBuffers) sharing.reverse _ :=
    .of_allows_start (by decide +kernel)
  exact ⟨hr, references_exact zeroed_twoBuffers hr, rfl, by decide +kernel⟩

end References

end RaidSystem.BufferCache
