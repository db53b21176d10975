/-
**Pipes: `kernel/pipe.c`.**

A pipe is a ring of 512 bytes with two free-running counters.  `pipewrite` puts bytes in one at a
time and sleeps while the ring is full, so that other processes may write in between; `piperead`
sleeps while the ring is empty and then takes out what there is.  The pipe lock makes everything
between two sleeps one step.

`piperead` advances its counter before it copies the byte to the reader.  When the copy faults, the
byte has left the pipe, and neither the reader nor anyone else gets it; the value returned does not
count it.  As long as the bytes that a reader takes can be stored at its addresses, nothing is lost
and nothing is duplicated.

Main definitions:

* `State`, `step` — one pipe, the memory, and any number of processes; a process that is in a call
  runs until it sleeps or returns;
* `Event` — a byte is put in, or taken out;
* `Kept` — the pipe holds at most 512 bytes, and the bytes taken out and those in it are the bytes
  put in;
* `ReadExact` — a read has delivered as many bytes as it returns;
* `Deliverable` — the bytes that a reader is about to take can be stored.

Main results:

* `pipewriteLoop_runs`, `pipereadLoop_runs` — what the two loops do;
* `pipes_exact` — **pipes lose and duplicate nothing** as long as no reader faults;
* `readsExactIff` — in any run, a read that returns is exact if and only if it does not fault: one
  that faults loses a byte;
* `piperead_loses_byte` — a run in which this happens.
-/

import RaidSystem.AddressSpace
import RaidSystem.ExactTrace
import RaidSystem.Reach
import RaidSystem.RingQueue

set_option autoImplicit false

namespace RaidSystem.Pipes

open Prog Function

/-! ### The pipe and the processes -/

/-- `PIPESIZE`. -/
def pipesize : ℕ := 512

/-- `struct pipe`; the counters are of type `uint`. -/
structure Pipe where
  data : ℕ → Byte
  nread : ℕ
  nwrite : ℕ
  readopen : Bool
  writeopen : Bool

/-- What a process is doing: nothing with the pipe, `pipewrite(pi, addr, n)` with `i` bytes written,
or `piperead(pi, addr, n)`, which sleeps only before its loop. -/
inductive Local
  | idle
  | writing (addr : ℕ) (n : ℤ) (i : ℕ)
  | reading (addr : ℕ) (n : ℤ)
deriving DecidableEq

structure Proc where
  pagetable : PageTable
  killed : Bool
  call : Local

/-- The pipe, until it is freed; the physical memory; and the processes. -/
structure State where
  pipe : Option Pipe
  mem : ℕ → Byte
  procs : ℕ → Proc

/-- A byte is put into the pipe, or taken out of it. -/
inductive Event
  | put (ch : Byte)
  | take (ch : Byte)
deriving DecidableEq

/-- Steps that do not exist: a use of the pipe after it was freed, a second call of a process that
is in a call, and a process that runs without being in a call. -/
inductive Fault
  | freed
  | busy
  | idle

abbrev Kernel := Prog State Event Fault

/-- How a process gives up the processor: it returns from the call, or sleeps in it. -/
inductive Burst
  | returned (v : ℤ)
  | asleep (call : Local)

/-- The value that the call returns. -/
def Burst.value : Burst → Option ℤ
  | .returned v => some v
  | .asleep _ => none

/-- What the process is doing from then on. -/
def Burst.call : Burst → Local
  | .returned _ => .idle
  | .asleep l => l

/-- The address `addr + i`. -/
def address (addr i : ℕ) : ℕ := (addr + i) % 2 ^ 64

namespace Pipe

/-- What `pipealloc` makes of a page. -/
def alloc (data : ℕ → Byte) : Pipe := ⟨data, 0, 0, true, true⟩

/-- `nwrite == nread + PIPESIZE`. -/
def Full (pi : Pipe) : Prop := pi.nwrite = (pi.nread + pipesize) % 2 ^ 32

instance (pi : Pipe) : Decidable pi.Full := inferInstanceAs (Decidable (_ = _))

/-- `data[nwrite++ % PIPESIZE] = ch`. -/
def push (pi : Pipe) (ch : Byte) : Pipe :=
  { pi with
    data := update pi.data (pi.nwrite % pipesize) ch
    nwrite := (pi.nwrite + 1) % 2 ^ 32 }

/-- `data[nread % PIPESIZE]`. -/
def next (pi : Pipe) : Byte := pi.data (pi.nread % pipesize)

/-- `nread++`. -/
def pop (pi : Pipe) : Pipe := { pi with nread := (pi.nread + 1) % 2 ^ 32 }

/-- The bytes in the pipe, oldest first. -/
def contents (pi : Pipe) : List Byte := Ring.contents pipesize (2 ^ 32) pi.data pi.nread pi.nwrite

/-- `nwrite - nread`. -/
def count (pi : Pipe) : ℕ := Ring.distance (2 ^ 32) pi.nread pi.nwrite

end Pipe

/-- The pipe, which must not have been freed. -/
def thePipe : Kernel Pipe := do
  match (← get).pipe with
  | some pi => pure pi
  | none => fail .freed

def setPipe (pi : Pipe) : Kernel Unit := modify fun s => { s with pipe := some pi }

def setMem (mem : ℕ → Byte) : Kernel Unit := modify fun s => { s with mem := mem }

def State.setCall (s : State) (p : ℕ) (call : Local) : State :=
  { s with procs := update s.procs p { s.procs p with call := call } }

def State.kill (s : State) (p : ℕ) : State :=
  { s with procs := update s.procs p { s.procs p with killed := true } }

/-! ### `pipewrite` and `piperead` -/

/-- The loop of `pipewrite` from round `i` on, with `k` rounds to go. -/
def pipewriteLoop (p addr : ℕ) (n : ℤ) : ℕ → ℕ → Kernel Burst
  | 0, i => pure (.returned i)
  | k + 1, i => do
    let s ← get
    let pi ← thePipe
    if pi.readopen = false ∨ (s.procs p).killed = true then pure (.returned (-1))
    else if pi.Full then pure (.asleep (.writing addr n i))
    else do
      let copied := copyin (s.procs p).pagetable s.mem (fun _ => 0) 0 (address addr i) 1
      if copied.1 = -1 then pure (.returned i)
      else do
        emit (.put (copied.2 0))
        setPipe (pi.push (copied.2 0))
        pipewriteLoop p addr n k (i + 1)

/-- The second loop of `piperead` from round `i` on, with `k` rounds to go. -/
def pipereadLoop (p addr : ℕ) : ℕ → ℕ → Kernel ℤ
  | 0, i => pure i
  | k + 1, i => do
    let s ← get
    let pi ← thePipe
    if pi.nread = pi.nwrite then pure i
    else do
      emit (.take pi.next)
      setPipe pi.pop
      let copied := copyout (s.procs p).pagetable s.mem (address addr i) (fun _ => pi.next) 1
      setMem copied.2
      if copied.1 = -1 then pure i else pipereadLoop p addr k (i + 1)

/-- `piperead`, from the start or from where it slept. -/
def piperead (p addr : ℕ) (n : ℤ) : Kernel Burst := do
  let s ← get
  let pi ← thePipe
  if pi.nread = pi.nwrite ∧ pi.writeopen = true then
    if (s.procs p).killed then pure (.returned (-1)) else pure (.asleep (.reading addr n))
  else do
    let i ← pipereadLoop p addr n.toNat 0
    pure (.returned i)

/-- `pipewrite`, from the start or from where it slept.  It takes the lock of the pipe even if there
is nothing to write. -/
def pipewrite (p addr : ℕ) (n : ℤ) (i : ℕ) : Kernel Burst := do
  let _ ← thePipe
  pipewriteLoop p addr n (n - i).toNat i

def pipeclose (writable : Bool) : Kernel Unit := do
  let pi ← thePipe
  let pi' := if writable then { pi with writeopen := false } else { pi with readopen := false }
  if pi'.readopen = false ∧ pi'.writeopen = false then modify fun s => { s with pipe := none }
  else setPipe pi'

/-! ### The system -/

/-- A process calls `pipewrite` or `piperead`; a process that is in a call gets the processor; an
end is closed; a process is killed; or user programs run, which may store to their memory and get
other page tables. -/
inductive Action
  | write (p addr : ℕ) (n : ℤ)
  | read (p addr : ℕ) (n : ℤ)
  | run (p : ℕ)
  | close (writable : Bool)
  | kill (p : ℕ)
  | elsewhere (mem : ℕ → Byte) (tables : ℕ → PageTable)

def call (p : ℕ) (l : Local) : Kernel Unit := do
  if ((← get).procs p).call = .idle then modify fun s => s.setCall p l else fail .busy

def giveUp (p : ℕ) (b : Burst) : Kernel (Option ℤ) := do
  modify fun s => s.setCall p b.call
  pure b.value

/-- Process `p` runs until it sleeps or returns.  A process that was woken up looks at the pipe
again, so that it does no harm to let it run without a wakeup. -/
def run (p : ℕ) : Kernel (Option ℤ) := do
  match ((← get).procs p).call with
  | .idle => fail .idle
  | .writing addr n i => do
    let b ← pipewrite p addr n i
    giveUp p b
  | .reading addr n => do
    let b ← piperead p addr n
    giveUp p b

/-- One step; the reply is the value that a call returns. -/
def step : Action → Kernel (Option ℤ)
  | .write p addr n => do
    call p (.writing addr n 0)
    pure none
  | .read p addr n => do
    call p (.reading addr n)
    pure none
  | .run p => run p
  | .close writable => do
    pipeclose writable
    pure none
  | .kill p => do
    modify fun s => s.kill p
    pure none
  | .elsewhere mem tables => do
    modify fun s => { s with mem := mem, procs := fun p =>
      { s.procs p with pagetable := tables p } }
    pure none

/-- A step of a run, with the value returned and the bytes that went in and out. -/
abbrev Rec := Record Action (Option ℤ × List Event) State

/-! ### What runs should do -/

/-- The bytes that are put in. -/
def puts : List Event → List Byte :=
  List.filterMap fun
    | .put ch => some ch
    | .take _ => none

/-- The bytes that are taken out. -/
def takes : List Event → List Byte :=
  List.filterMap fun
    | .put _ => none
    | .take ch => some ch

/-- The events of a run, oldest first. -/
def history : List Rec → List Event
  | [] => []
  | e :: l => history l ++ e.reply.2

/-- The events of the call that process `p` made last. -/
def callEvents (p : ℕ) : List Rec → List Event
  | [] => []
  | e :: l =>
    match e.call with
    | .write q _ _ => if q = p then [] else callEvents p l
    | .read q _ _ => if q = p then [] else callEvents p l
    | .run q => if q = p then callEvents p l ++ e.reply.2 else callEvents p l
    | _ => callEvents p l

/-- The memory after the bytes were stored at `addr + i`, `addr + i + 1`, …, one after the other. -/
def deliver (pagetable : PageTable) (addr : ℕ) : ℕ → List Byte → (ℕ → Byte) → ℕ → Byte
  | _, [], mem => mem
  | i, ch :: bs, mem => deliver pagetable addr (i + 1) bs
      (update mem (physical pagetable (address addr i)) ch)

/-- The latest step returns `v` from a `piperead(pi, addr, n)` of process `p`. -/
def Rec.ReadReturns (e : Rec) (p addr : ℕ) (v : ℤ) : Prop :=
  e.call = .run p ∧ (∃ n, (e.before.procs p).call = .reading addr n) ∧ e.reply.1 = some v

/-- The latest step returns `v` from a `pipewrite(pi, addr, n)` of process `p`. -/
def Rec.WriteReturns (e : Rec) (p : ℕ) (v : ℤ) : Prop :=
  e.call = .run p ∧ (∃ addr n i, (e.before.procs p).call = .writing addr n i) ∧ e.reply.1 = some v

/-- What holds whatever the addresses are: the pipe holds at most `PIPESIZE` bytes; the bytes taken
out, followed by those in the pipe, are the bytes put in; and a `pipewrite` that returns a count has
put in so many bytes. -/
structure Kept (l : List Rec) (s : State) : Prop where
  bounded : ∀ pi, s.pipe = some pi → pi.count ≤ pipesize
  fifo : takes (history l) <+: puts (history l)
  kept : ∀ pi, s.pipe = some pi → puts (history l) = takes (history l) ++ pi.contents
  writes : ∀ e l', l = e :: l' → ∀ p v, e.WriteReturns p v → 0 ≤ v →
    ((puts (callEvents p l)).length : ℤ) = v

/-- A `piperead(pi, addr, n)` of process `p` that returned `v` in the step `e`, the latest of `l`,
has taken out `v` bytes and delivered them at `addr`, `addr + 1`, …; if `v` is `-1`, it has taken
out none. -/
structure ReadExact (l : List Rec) (e : Rec) (p addr : ℕ) (v : ℤ) : Prop where
  taken : (takes (callEvents p l)).length = v.toNat
  mapped : ∀ k < v.toNat, walkaddr (e.before.procs p).pagetable (address addr k) ≠ 0
  mem : e.after.mem =
    deliver (e.before.procs p).pagetable addr 0 (takes (callEvents p l)) e.before.mem

/-- The bytes that process `p` is about to take from the pipe can be stored at its addresses. -/
def Deliverable (s : State) (p : ℕ) : Prop :=
  ∀ addr n pi, (s.procs p).call = .reading addr n → s.pipe = some pi →
    ∀ k < min n.toNat pi.count, walkaddr (s.procs p).pagetable (address addr k) ≠ 0

/-- Whenever a process runs, the bytes it is about to take can be stored. -/
def NoReadFaults (s : State) : Action → Prop
  | .run p => Deliverable s p
  | _ => True

/-- A pipe that was just allocated, and no process in a call. -/
structure Fresh (s : State) : Prop where
  pipe : ∃ data, s.pipe = some (.alloc data)
  procs : ∀ p, (s.procs p).call = .idle

/-- In every state that a run of allowed steps leads to, the bytes are kept, and every read that
returns in the latest step is exact. -/
def PipesExact (ok : State → Action → Prop) : Prop :=
  ∀ s₀, Fresh s₀ → ∀ l s, Run (fun a => traced (step a)) ok s₀ l s →
    Kept l s ∧ ∀ e l', l = e :: l' → ∀ p addr v, Rec.ReadReturns e p addr v → ReadExact l e p addr v

/-- Whatever the addresses are, the bytes are kept, and a read is exact if and only if the bytes
that it was about to take could be stored. -/
def ReadsExactIff : Prop :=
  ∀ s₀, Fresh s₀ → ∀ l s, Run (fun a => traced (step a)) (fun _ _ => True) s₀ l s →
    Kept l s ∧ ∀ e l', l = e :: l' → ∀ p addr v, Rec.ReadReturns e p addr v →
      (ReadExact l e p addr v ↔ Deliverable e.before p)

/-! ### The ring -/

namespace Pipe

variable {pi : Pipe} {ch : Byte}

/-- The counters are numbers of type `uint`, at most `PIPESIZE` apart. -/
structure Valid (pi : Pipe) : Prop where
  nread_lt : pi.nread < 2 ^ 32
  nwrite_lt : pi.nwrite < 2 ^ 32
  count_le : pi.count ≤ pipesize

theorem length_contents : pi.contents.length = pi.count := Ring.length_contents

theorem count_alloc (data : ℕ → Byte) : (alloc data).count = 0 :=
  Ring.distance_self (Nat.two_pow_pos 32)

theorem valid_alloc (data : ℕ → Byte) : (alloc data).Valid :=
  ⟨Nat.two_pow_pos 32, Nat.two_pow_pos 32, by rw [count_alloc]; exact Nat.zero_le _⟩

theorem contents_alloc (data : ℕ → Byte) : (alloc data).contents = [] :=
  Ring.contents_self (Nat.two_pow_pos 32)

namespace Valid

section

variable (hv : pi.Valid)

include hv

theorem full_of_count_eq (h : pi.count = pipesize) : pi.Full := by
  have hadd := Ring.add_distance hv.nread_lt hv.nwrite_lt
  rw [Full, ← h]
  exact hadd.symm

theorem count_lt (hfull : ¬ pi.Full) : pi.count < pipesize :=
  lt_of_le_of_ne hv.count_le fun h => hfull (hv.full_of_count_eq h)

theorem contents_push (hfull : ¬ pi.Full) :
    (pi.push ch).contents = pi.contents ++ [ch] :=
  Ring.contents_push (by decide) (by decide) hv.nread_lt hv.nwrite_lt
    (by rw [Ring.length_contents]; exact hv.count_lt hfull) ch

theorem push (hfull : ¬ pi.Full) : (pi.push ch).Valid := by
  refine ⟨hv.nread_lt, Nat.mod_lt _ (by decide), ?_⟩
  rw [← length_contents, hv.contents_push hfull, List.length_append, length_contents]
  exact hv.count_lt hfull

theorem contents_pop (h : pi.nread ≠ pi.nwrite) :
    pi.contents = pi.next :: pi.pop.contents :=
  Ring.contents_pop hv.nread_lt hv.nwrite_lt h

theorem count_pop (h : pi.nread ≠ pi.nwrite) : pi.count = pi.pop.count + 1 :=
  Ring.distance_pred hv.nread_lt hv.nwrite_lt h

theorem pop (h : pi.nread ≠ pi.nwrite) : pi.pop.Valid := by
  refine ⟨Nat.mod_lt _ (by decide), hv.nwrite_lt, ?_⟩
  have hle := hv.count_le
  rw [hv.count_pop h] at hle
  exact Nat.le_of_succ_le hle

theorem count_of_eq (h : pi.nread = pi.nwrite) : pi.count = 0 := by
  rw [count, ← h]
  exact Ring.distance_self hv.nread_lt

end

end Valid

end Pipe

/-! ### The loops -/

section Loops

variable {s s' : State} {pi : Pipe} {t : List Event} {p addr k i : ℕ} {n : ℤ}

theorem runs_thePipe : Runs thePipe s pi t s' ↔ s.pipe = some pi ∧ t = [] ∧ s' = s := by
  rw [thePipe, (get_runs s).silent_iff]
  cases hp : s.pipe with
  | none => simp
  | some pi' => simp [eq_comm]

/-- What a writer does until it gives up the processor with `b`: it puts in the bytes `bs`, and the
count of the call, which was `i`, goes up by their number. -/
structure Writes (addr : ℕ) (n : ℤ) (i : ℕ) (s : State) (pi : Pipe) (b : Burst) (t : List Event)
    (s' : State) (bs : List Byte) (pi' : Pipe) : Prop where
  events : t = bs.map .put
  state : s' = { s with pipe := some pi' }
  valid : pi'.Valid
  contents : pi'.contents = pi.contents ++ bs
  burst : b = .returned (-1) ∨ b = .returned (i + bs.length : ℕ) ∨
    b = .asleep (.writing addr n (i + bs.length))

/-- The loop ends in this round. -/
theorem Writes.stop {b : Burst} (hp : s.pipe = some pi) (hv : pi.Valid) (ht : t = [] ∧ s' = s)
    (hb : b = .returned (-1) ∨ b = .returned i ∨ b = .asleep (.writing addr n i)) :
    Writes addr n i s pi b t s' [] pi := by
  obtain ⟨rfl, rfl⟩ := ht
  exact ⟨rfl, by rw [← hp], hv, (List.append_nil _).symm, hb⟩

/-- A round that puts in a byte, and the rounds after it. -/
theorem Writes.cons {b : Burst} {pi' : Pipe} {ch : Byte} {bs : List Byte} (hv : pi.Valid)
    (hfull : ¬ pi.Full)
    (h : Writes addr n (i + 1) { s with pipe := some (pi.push ch) } (pi.push ch) b t s' bs pi') :
    Writes addr n i s pi b (.put ch :: t) s' (ch :: bs) pi' := by
  obtain ⟨rfl, hs, hv', hcontents, hb⟩ := h
  refine ⟨rfl, hs, hv', ?_, ?_⟩
  · rw [hcontents, hv.contents_push hfull, List.append_assoc]
    rfl
  · rwa [List.length_cons, show i + (bs.length + 1) = i + 1 + bs.length by omega]

/-- **The loop of `pipewrite`.** -/
theorem pipewriteLoop_runs {b : Burst} (hp : s.pipe = some pi) (hv : pi.Valid)
    (h : Runs (pipewriteLoop p addr n k i) s b t s') :
    ∃ bs pi', Writes addr n i s pi b t s' bs pi' := by
  induction k generalizing s i t pi with
  | zero =>
    obtain ⟨rfl, hrest⟩ := runs_pure.1 h
    exact ⟨[], pi, .stop hp hv hrest (.inr (.inl rfl))⟩
  | succ k ih =>
    rw [pipewriteLoop, (get_runs s).silent_iff, (runs_thePipe.2 ⟨hp, rfl, rfl⟩).silent_iff] at h
    rcases runs_ite.1 h with ⟨-, h⟩ | ⟨-, h⟩
    · obtain ⟨rfl, hrest⟩ := runs_pure.1 h
      exact ⟨[], pi, .stop hp hv hrest (.inl rfl)⟩
    rcases runs_ite.1 h with ⟨-, h⟩ | ⟨hfull, h⟩
    · obtain ⟨rfl, hrest⟩ := runs_pure.1 h
      exact ⟨[], pi, .stop hp hv hrest (.inr (.inr rfl))⟩
    rcases runs_ite.1 h with ⟨-, h⟩ | ⟨-, h⟩
    · obtain ⟨rfl, hrest⟩ := runs_pure.1 h
      exact ⟨[], pi, .stop hp hv hrest (.inr (.inl rfl))⟩
    obtain ⟨t₁, hpush, rfl⟩ := (emit_runs _ s).bind_iff.1 h
    rw [setPipe, (modify_runs _ _).silent_iff] at hpush
    obtain ⟨bs, pi', hrest⟩ := ih rfl (hv.push hfull) hpush
    exact ⟨_, pi', hrest.cons hv hfull⟩

/-- What a reader does in the rounds from `i` on, with `k` to go, until the loop returns `v`: it
takes out the bytes `bs`; and either it goes on for as long as there are rounds and bytes and
delivers them all, or the last byte faults and is not counted. -/
structure Reads (p addr k i : ℕ) (s : State) (pi : Pipe) (v : ℤ) (t : List Event) (s' : State)
    (bs : List Byte) (pi' : Pipe) (mem : ℕ → Byte) : Prop where
  events : t = bs.map .take
  state : s' = { s with pipe := some pi', mem := mem }
  valid : pi'.Valid
  contents : pi.contents = bs ++ pi'.contents
  rounds : bs.length ≤ k
  delivered : v = (i + bs.length : ℕ) ∧ bs.length = min k pi.count ∧
      (∀ j < bs.length, walkaddr (s.procs p).pagetable (address addr (i + j)) ≠ 0) ∧
      mem = deliver (s.procs p).pagetable addr i bs s.mem ∨
    ∃ j, bs.length = j + 1 ∧ v = (i + j : ℕ) ∧
      walkaddr (s.procs p).pagetable (address addr (i + j)) = 0

theorem Reads.stop (hp : s.pipe = some pi) (hv : pi.Valid) (hk : k = 0 ∨ pi.nread = pi.nwrite)
    (ht : t = [] ∧ s' = s) : Reads p addr k i s pi i t s' [] pi s.mem := by
  obtain ⟨rfl, rfl⟩ := ht
  have hmin : 0 = min k pi.count := by
    rcases hk with rfl | heq
    · rw [Nat.zero_min]
    · rw [hv.count_of_eq heq, Nat.min_zero]
  exact ⟨rfl, by rw [← hp], hv, rfl, Nat.zero_le k,
    .inl ⟨rfl, hmin, (fun j hj => by cases hj), rfl⟩⟩

/-- A byte that faults ends the loop. -/
theorem Reads.fault (hv : pi.Valid) (hne : pi.nread ≠ pi.nwrite)
    (hpa : walkaddr (s.procs p).pagetable (address addr i) = 0)
    (hs : s' = { s with pipe := some pi.pop }) :
    Reads p addr (k + 1) i s pi i [.take pi.next] s' [pi.next] pi.pop s.mem := by
  subst hs
  exact ⟨rfl, rfl, hv.pop hne, hv.contents_pop hne, Nat.le_add_left 1 k, .inr ⟨0, rfl, rfl, hpa⟩⟩

theorem Reads.cons {v : ℤ} {pi' : Pipe} {bs : List Byte} {mem mem₁ : ℕ → Byte} (hv : pi.Valid)
    (hne : pi.nread ≠ pi.nwrite) (hpa : walkaddr (s.procs p).pagetable (address addr i) ≠ 0)
    (hmem : mem₁ = update s.mem (physical (s.procs p).pagetable (address addr i)) pi.next)
    (h : Reads p addr k (i + 1) ⟨some pi.pop, mem₁, s.procs⟩ pi.pop v t s' bs pi' mem) :
    Reads p addr (k + 1) i s pi v (.take pi.next :: t) s' (pi.next :: bs) pi' mem := by
  subst hmem
  obtain ⟨rfl, hs, hv', hcontents, hrounds, hdel⟩ := h
  refine ⟨rfl, hs, hv', ?_, Nat.succ_le_succ hrounds, ?_⟩
  · rw [hv.contents_pop hne, hcontents]
    rfl
  · rcases hdel with ⟨rfl, hmin, hmap, rfl⟩ | ⟨j, hj, rfl, hfault⟩
    · refine .inl ⟨?_, ?_, ?_, rfl⟩
      · rw [List.length_cons]
        omega
      · rw [List.length_cons, hv.count_pop hne]
        omega
      · intro j hj
        cases j with
        | zero => exact hpa
        | succ j =>
          rw [show i + (j + 1) = i + 1 + j by omega]
          exact hmap j (Nat.lt_of_succ_lt_succ hj)
    · refine .inr ⟨j + 1, ?_, ?_, ?_⟩
      · rw [List.length_cons, hj]
      · omega
      · rwa [show i + (j + 1) = i + 1 + j by omega]

/-- **The loop of `piperead`.** -/
theorem pipereadLoop_runs {v : ℤ} (hp : s.pipe = some pi) (hv : pi.Valid)
    (h : Runs (pipereadLoop p addr k i) s v t s') :
    ∃ bs pi' mem, Reads p addr k i s pi v t s' bs pi' mem := by
  induction k generalizing s i t pi with
  | zero =>
    obtain ⟨rfl, hrest⟩ := runs_pure.1 h
    exact ⟨[], pi, _, .stop hp hv (.inl rfl) hrest⟩
  | succ k ih =>
    rw [pipereadLoop, (get_runs s).silent_iff, (runs_thePipe.2 ⟨hp, rfl, rfl⟩).silent_iff] at h
    rcases runs_ite.1 h with ⟨heq, h⟩ | ⟨hne, h⟩
    · obtain ⟨rfl, hrest⟩ := runs_pure.1 h
      exact ⟨[], pi, _, .stop hp hv (.inr heq) hrest⟩
    obtain ⟨t₁, hpop, rfl⟩ := (emit_runs _ s).bind_iff.1 h
    rw [setPipe, (modify_runs _ _).silent_iff] at hpop
    dsimp only at hpop
    rw [setMem, (modify_runs _ _).silent_iff] at hpop
    by_cases hpa : walkaddr (s.procs p).pagetable (address addr i) = 0
    · rw [copyout_byte_unmapped hpa, if_pos rfl] at hpop
      obtain ⟨rfl, rfl, rfl⟩ := runs_pure.1 hpop
      exact ⟨_, _, _, .fault hv hne hpa rfl⟩
    · rw [copyout_byte hpa, if_neg (show ¬ (0 : ℤ) = -1 by decide)] at hpop
      obtain ⟨bs, pi', mem, hrest⟩ := ih rfl (hv.pop hne) hpop
      exact ⟨_, pi', mem, hrest.cons hv hne hpa rfl⟩

/-- **`piperead`** sleeps or gives up while the pipe is empty, and otherwise runs its loop. -/
theorem piperead_runs {b : Burst} (hv : ∀ pi, s.pipe = some pi → pi.Valid)
    (h : Runs (piperead p addr n) s b t s') :
    (t = [] ∧ s' = s ∧ (∃ pi, s.pipe = some pi ∧ pi.count = 0) ∧
        (b = .returned (-1) ∨ b = .asleep (.reading addr n))) ∨
      ∃ v pi bs pi' mem, b = .returned v ∧ s.pipe = some pi ∧
        Reads p addr n.toNat 0 s pi v t s' bs pi' mem := by
  rw [piperead, (get_runs s).silent_iff] at h
  obtain ⟨pi, t₁, s₁, t₂, hpi, hrest, rfl⟩ := runs_bind.1 h
  obtain ⟨hp, rfl, rfl⟩ := runs_thePipe.1 hpi
  rcases runs_ite.1 hrest with ⟨⟨heq, -⟩, hstop⟩ | ⟨-, hloop⟩
  · refine .inl ?_
    have hzero := (hv pi hp).count_of_eq heq
    rcases runs_ite.1 hstop with ⟨-, hstop⟩ | ⟨-, hstop⟩
    · obtain ⟨rfl, rfl, rfl⟩ := runs_pure.1 hstop
      exact ⟨rfl, rfl, ⟨pi, hp, hzero⟩, .inl rfl⟩
    · obtain ⟨rfl, rfl, rfl⟩ := runs_pure.1 hstop
      exact ⟨rfl, rfl, ⟨pi, hp, hzero⟩, .inr rfl⟩
  · refine .inr ?_
    obtain ⟨v, t₁, s₂, t₃, hloop, hend, rfl⟩ := runs_bind.1 hloop
    obtain ⟨rfl, rfl, rfl⟩ := runs_pure.1 hend
    obtain ⟨bs, pi', mem, hreads⟩ := pipereadLoop_runs hp (hv pi hp) hloop
    rw [List.nil_append, List.append_nil]
    exact ⟨v, pi, bs, pi', mem, rfl, hp, hreads⟩

/-- **`pipewrite`** runs its loop. -/
theorem pipewrite_runs {b : Burst} (hv : ∀ pi, s.pipe = some pi → pi.Valid)
    (h : Runs (pipewrite p addr n i) s b t s') :
    ∃ pi bs pi', s.pipe = some pi ∧ Writes addr n i s pi b t s' bs pi' := by
  obtain ⟨pi, t₁, s₁, t₂, hpi, hloop, rfl⟩ := runs_bind.1 h
  obtain ⟨hp, rfl, rfl⟩ := runs_thePipe.1 hpi
  obtain ⟨bs, pi', hwrites⟩ := pipewriteLoop_runs hp (hv pi hp) hloop
  exact ⟨pi, bs, pi', hp, hwrites⟩

end Loops

/-! ### Steps -/

section Steps

variable {s s' : State} {t : List Event} {r : Option ℤ} {p : ℕ}

@[simp] theorem puts_append (t₁ t₂ : List Event) : puts (t₁ ++ t₂) = puts t₁ ++ puts t₂ :=
  List.filterMap_append

@[simp] theorem takes_append (t₁ t₂ : List Event) : takes (t₁ ++ t₂) = takes t₁ ++ takes t₂ :=
  List.filterMap_append

@[simp] theorem puts_map_put (bs : List Byte) : puts (bs.map .put) = bs := by
  induction bs with
  | nil => rfl
  | cons ch bs ih => exact congrArg (ch :: ·) ih

@[simp] theorem takes_map_put (bs : List Byte) : takes (bs.map .put) = [] := by
  induction bs with
  | nil => rfl
  | cons ch bs ih => exact ih

@[simp] theorem puts_map_take (bs : List Byte) : puts (bs.map .take) = [] := by
  induction bs with
  | nil => rfl
  | cons ch bs ih => exact ih

@[simp] theorem takes_map_take (bs : List Byte) : takes (bs.map .take) = bs := by
  induction bs with
  | nil => rfl
  | cons ch bs ih => exact congrArg (ch :: ·) ih

theorem runs_call {l : Local} : Runs (do call p l; pure none) s r t s' ↔
    (s.procs p).call = .idle ∧ r = none ∧ t = [] ∧ s' = s.setCall p l := by
  simp only [call, runs_bind, runs_get, runs_ite, runs_modify, runs_pure, not_runs_fail]
  constructor
  · rintro ⟨_, _, _, _, ⟨_, _, _, _, ⟨rfl, rfl, rfl⟩, ⟨hidle, rfl, rfl⟩ | ⟨-, hfail⟩, rfl⟩,
      ⟨rfl, rfl, rfl⟩, rfl⟩
    · exact ⟨hidle, rfl, rfl, rfl⟩
    · exact absurd hfail id
  · rintro ⟨hidle, rfl, rfl, rfl⟩
    exact ⟨(), [], _, [], ⟨s, [], s, [], ⟨rfl, rfl, rfl⟩, .inl ⟨hidle, rfl, rfl⟩, rfl⟩,
      ⟨rfl, rfl, rfl⟩, rfl⟩

theorem runs_step_write {addr : ℕ} {n : ℤ} : Runs (step (.write p addr n)) s r t s' ↔
    (s.procs p).call = .idle ∧ r = none ∧ t = [] ∧ s' = s.setCall p (.writing addr n 0) := runs_call

theorem runs_step_read {addr : ℕ} {n : ℤ} : Runs (step (.read p addr n)) s r t s' ↔
    (s.procs p).call = .idle ∧ r = none ∧ t = [] ∧ s' = s.setCall p (.reading addr n) := runs_call

theorem runs_giveUp {b : Burst} :
    Runs (giveUp p b) s r t s' ↔ r = b.value ∧ t = [] ∧ s' = s.setCall p b.call := by
  rw [giveUp, (modify_runs _ s).silent_iff, runs_pure]

/-- **What a process does when it gets the processor.** -/
theorem runs_run (h : Runs (run p) s r t s') : ∃ b s₁, r = b.value ∧ s' = s₁.setCall p b.call ∧
    ((∃ addr n i, (s.procs p).call = .writing addr n i ∧ Runs (pipewrite p addr n i) s b t s₁) ∨
      ∃ addr n, (s.procs p).call = .reading addr n ∧ Runs (piperead p addr n) s b t s₁) := by
  rw [run, (get_runs s).silent_iff] at h
  split at h
  case h_1 => exact absurd h not_runs_fail
  case h_2 addr n i hcall =>
    obtain ⟨b, t₁, s₁, t₂, hburst, hgive, rfl⟩ := runs_bind.1 h
    obtain ⟨rfl, rfl, rfl⟩ := runs_giveUp.1 hgive
    rw [List.append_nil]
    exact ⟨b, s₁, rfl, rfl, .inl ⟨addr, n, i, hcall, hburst⟩⟩
  case h_3 addr n hcall =>
    obtain ⟨b, t₁, s₁, t₂, hburst, hgive, rfl⟩ := runs_bind.1 h
    obtain ⟨rfl, rfl, rfl⟩ := runs_giveUp.1 hgive
    rw [List.append_nil]
    exact ⟨b, s₁, rfl, rfl, .inr ⟨addr, n, hcall, hburst⟩⟩

/-- `pipeclose` leaves the bytes in the pipe alone, or frees it. -/
theorem runs_pipeclose {writable : Bool} {u : Unit} (h : Runs (pipeclose writable) s u t s') :
    t = [] ∧ s'.procs = s.procs ∧ ∃ pi, s.pipe = some pi ∧ (s'.pipe = none ∨
      ∃ pi', s'.pipe = some pi' ∧ pi'.contents = pi.contents ∧ (pi.Valid → pi'.Valid)) := by
  obtain ⟨pi, t₁, s₁, t₂, hpi, hrest, rfl⟩ := runs_bind.1 h
  obtain ⟨hp, rfl, rfl⟩ := runs_thePipe.1 hpi
  dsimp only at hrest
  rcases runs_ite.1 hrest with ⟨-, hrest⟩ | ⟨-, hrest⟩
  · obtain ⟨rfl, rfl⟩ := runs_modify.1 hrest
    exact ⟨rfl, rfl, pi, hp, .inl rfl⟩
  · obtain ⟨rfl, rfl⟩ := runs_modify.1 hrest
    refine ⟨rfl, rfl, pi, hp, .inr ⟨_, rfl, ?_⟩⟩
    cases writable with
    | true => exact ⟨rfl, fun hv => ⟨hv.nread_lt, hv.nwrite_lt, hv.count_le⟩⟩
    | false => exact ⟨rfl, fun hv => ⟨hv.nread_lt, hv.nwrite_lt, hv.count_le⟩⟩

end Steps

/-! ### Runs -/

/-- The counters are in range; the bytes in the pipe are those that were put in and not taken out;
a writer that sleeps has counted its bytes, and a reader that sleeps has taken none. -/
structure Inv (l : List Rec) (s : State) : Prop where
  valid : ∀ pi, s.pipe = some pi → pi.Valid
  fifo : takes (history l) <+: puts (history l)
  kept : ∀ pi, s.pipe = some pi → puts (history l) = takes (history l) ++ pi.contents
  writing : ∀ p addr n i, (s.procs p).call = .writing addr n i → (puts (callEvents p l)).length = i
  reading : ∀ p addr n, (s.procs p).call = .reading addr n → takes (callEvents p l) = []

section Runs

variable {l : List Rec} {s s' : State} {t : List Event} {r : Option ℤ} {p addr : ℕ} {a : Action}

theorem setCall_self (s : State) (p : ℕ) (c : Local) : ((s.setCall p c).procs p).call = c := by
  simp only [State.setCall, update_self]

theorem setCall_of_ne {q : ℕ} (h : q ≠ p) (s : State) (c : Local) :
    (s.setCall p c).procs q = s.procs q := update_of_ne h _ _

theorem callEvents_run {e : Rec} (he : e.call = .run p) (q : ℕ) :
    callEvents q (e :: l) = if p = q then callEvents q l ++ e.reply.2 else callEvents q l := by
  simp only [callEvents, he]

theorem inv_start (h : Fresh s) : Inv [] s := by
  obtain ⟨data, hpipe⟩ := h.pipe
  have halloc : ∀ pi, s.pipe = some pi → pi = .alloc data := fun pi hpi =>
    Option.mem_unique hpi hpipe
  constructor
  · intro pi hpi
    rw [halloc pi hpi]
    exact Pipe.valid_alloc data
  · exact List.prefix_refl _
  · intro pi hpi
    rw [halloc pi hpi, Pipe.contents_alloc]
    rfl
  · intro p addr n i hcall
    rw [h.procs p] at hcall
    cases hcall
  · intro p addr n hcall
    rw [h.procs p] at hcall
    cases hcall

namespace Inv

section

variable (hI : Inv l s)

include hI

/-- Steps outside the loops: no byte goes in or out, and a process that is in a call stays in it. -/
theorem quiet {e : Rec} (he : e.reply.2 = [])
    (hpipe : ∀ pi', s'.pipe = some pi' →
      ∃ pi, s.pipe = some pi ∧ pi'.contents = pi.contents ∧ (pi.Valid → pi'.Valid))
    (hcalls : ∀ q, (s'.procs q).call = (s.procs q).call ∧
      callEvents q (e :: l) = callEvents q l ∨ ∃ addr n, callEvents q (e :: l) = [] ∧
        ((s'.procs q).call = .writing addr n 0 ∨ (s'.procs q).call = .reading addr n)) :
    Inv (e :: l) s' := by
  have hhistory : history (e :: l) = history l := by rw [history, he, List.append_nil]
  refine ⟨?_, ?_, ?_, ?_, ?_⟩
  · intro pi' hpi'
    obtain ⟨pi, hpi, -, hv⟩ := hpipe pi' hpi'
    exact hv (hI.valid pi hpi)
  · rw [hhistory]
    exact hI.fifo
  · intro pi' hpi'
    obtain ⟨pi, hpi, hcontents, -⟩ := hpipe pi' hpi'
    rw [hhistory, hcontents]
    exact hI.kept pi hpi
  · intro q addr n i hcall
    rcases hcalls q with ⟨hsame, hev⟩ | ⟨_, _, hev, hnew | hnew⟩
    · rw [hev]
      exact hI.writing q addr n i (hsame ▸ hcall)
    · cases hnew.symm.trans hcall
      rw [hev]
      rfl
    · cases hnew.symm.trans hcall
  · intro q addr n hcall
    rcases hcalls q with ⟨hsame, hev⟩ | ⟨_, _, hev, -⟩
    · rw [hev]
      exact hI.reading q addr n (hsame ▸ hcall)
    · rw [hev]
      rfl

/-- A burst of process `p`, which puts in or takes out bytes. -/
theorem burst {e : Rec} (he : e.call = .run p) {pi pi' : Pipe} {s₁ : State} {b : Burst}
    (hpi : s.pipe = some pi) (hpi' : s₁.pipe = some pi') (hprocs : s₁.procs = s.procs)
    (hv : pi'.Valid)
    (hbytes : (takes e.reply.2 = [] ∧ pi'.contents = pi.contents ++ puts e.reply.2) ∨
      (puts e.reply.2 = [] ∧ pi.contents = takes e.reply.2 ++ pi'.contents))
    (hw : ∀ addr n i, b.call = .writing addr n i →
      (puts (callEvents p l ++ e.reply.2)).length = i)
    (hr : ∀ addr n, b.call = .reading addr n → takes (callEvents p l ++ e.reply.2) = []) :
    Inv (e :: l) (s₁.setCall p b.call) := by
  have hkept := hI.kept pi hpi
  have hkept' : puts (history (e :: l)) = takes (history (e :: l)) ++ pi'.contents := by
    rw [history, puts_append, takes_append, hkept]
    rcases hbytes with ⟨htakes, hcontents⟩ | ⟨hputs, hcontents⟩
    · rw [htakes, hcontents, List.append_nil, List.append_assoc]
    · rw [hputs, hcontents, List.append_nil, List.append_assoc]
  have hother : ∀ q ≠ p, ((s₁.setCall p b.call).procs q = s.procs q ∧
      callEvents q (e :: l) = callEvents q l) := by
    intro q hq
    rw [setCall_of_ne hq, hprocs, callEvents_run he, if_neg (Ne.symm hq)]
    exact ⟨rfl, rfl⟩
  have hself : callEvents p (e :: l) = callEvents p l ++ e.reply.2 := by
    rw [callEvents_run he, if_pos rfl]
  refine ⟨?_, ⟨_, hkept'.symm⟩, ?_, ?_, ?_⟩
  · intro pi₁ hpi₁
    obtain rfl := Option.mem_unique hpi' hpi₁
    exact hv
  · intro pi₁ hpi₁
    obtain rfl := Option.mem_unique hpi' hpi₁
    exact hkept'
  · intro q addr n i hcall
    rcases eq_or_ne q p with rfl | hq
    · rw [setCall_self] at hcall
      rw [hself]
      exact hw addr n i hcall
    · rw [(hother q hq).1] at hcall
      rw [(hother q hq).2]
      exact hI.writing q addr n i hcall
  · intro q addr n hcall
    rcases eq_or_ne q p with rfl | hq
    · rw [setCall_self] at hcall
      rw [hself]
      exact hr addr n hcall
    · rw [(hother q hq).1] at hcall
      rw [(hother q hq).2]
      exact hI.reading q addr n hcall

theorem write {addr i : ℕ} {n : ℤ} {b : Burst} {s₁ : State}
    (hcall : (s.procs p).call = .writing addr n i) (h : Runs (pipewrite p addr n i) s b t s₁) :
    Inv (⟨s, .run p, (b.value, t), s₁.setCall p b.call⟩ :: l) (s₁.setCall p b.call) ∧
      ∀ v, b.value = some v → 0 ≤ v → ((puts (callEvents p l ++ t)).length : ℤ) = v := by
  obtain ⟨pi, bs, pi', hpi, hwrites⟩ := pipewrite_runs hI.valid h
  obtain ⟨rfl, rfl, hv, hcontents, hb⟩ := hwrites
  have hcount := hI.writing p addr n i hcall
  have hlength : (puts (callEvents p l ++ bs.map .put)).length = i + bs.length := by
    rw [puts_append, puts_map_put, List.length_append, hcount]
  constructor
  · refine hI.burst rfl hpi rfl rfl hv (.inl ⟨takes_map_put bs, ?_⟩) ?_ ?_
    · rw [puts_map_put, hcontents]
    · intro addr' n' i' hcall'
      rcases hb with rfl | rfl | rfl
      · cases hcall'
      · cases hcall'
      · cases hcall'
        exact hlength
    · intro addr' n' hcall'
      rcases hb with rfl | rfl | rfl <;> cases hcall'
  · intro v hvalue hnonneg
    rw [hlength]
    rcases hb with rfl | rfl | rfl
    · cases hvalue
      omega
    · cases hvalue
      rfl
    · cases hvalue

theorem read {addr : ℕ} {n : ℤ} {b : Burst} {s₁ : State}
    (hcall : (s.procs p).call = .reading addr n) (h : Runs (piperead p addr n) s b t s₁) :
    Inv (⟨s, .run p, (b.value, t), s₁.setCall p b.call⟩ :: l) (s₁.setCall p b.call) := by
  have hnone := hI.reading p addr n hcall
  rcases piperead_runs hI.valid h with ⟨rfl, rfl, ⟨pi, hpi, -⟩, hb⟩ |
    ⟨v, pi, bs, pi', mem, rfl, hpi, hreads⟩
  · refine hI.burst rfl hpi hpi rfl (hI.valid pi hpi) (.inl ⟨rfl, (List.append_nil _).symm⟩) ?_ ?_
    · intro addr' n' i' hcall'
      rcases hb with rfl | rfl <;> cases hcall'
    · intro addr' n' _
      rw [List.append_nil, hnone]
  · obtain ⟨rfl, rfl, hv, hcontents, -, -⟩ := hreads
    refine hI.burst rfl hpi rfl rfl hv (.inr ⟨puts_map_take bs, ?_⟩) ?_ ?_
    · rw [takes_map_take, hcontents]
    · intro addr' n' i' hcall'
      cases hcall'
    · intro addr' n' hcall'
      cases hcall'

theorem step (h : Prog.Runs (Pipes.step a) s r t s') :
    Inv (⟨s, a, (r, t), s'⟩ :: l) s' := by
  cases a with
  | write p addr n =>
    obtain ⟨-, rfl, rfl, rfl⟩ := runs_step_write.1 h
    refine hI.quiet rfl (fun pi hpi => ⟨pi, hpi, rfl, id⟩) fun q => ?_
    rcases eq_or_ne p q with rfl | hq
    · exact .inr ⟨addr, n, if_pos rfl, .inl (setCall_self s p _)⟩
    · exact .inl ⟨by rw [setCall_of_ne (Ne.symm hq)], if_neg hq⟩
  | read p addr n =>
    obtain ⟨-, rfl, rfl, rfl⟩ := runs_step_read.1 h
    refine hI.quiet rfl (fun pi hpi => ⟨pi, hpi, rfl, id⟩) fun q => ?_
    rcases eq_or_ne p q with rfl | hq
    · exact .inr ⟨addr, n, if_pos rfl, .inr (setCall_self s p _)⟩
    · exact .inl ⟨by rw [setCall_of_ne (Ne.symm hq)], if_neg hq⟩
  | run p =>
    obtain ⟨b, s₁, rfl, rfl, ⟨addr, n, i, hcall, hburst⟩ | ⟨addr, n, hcall, hburst⟩⟩ := runs_run h
    · exact (hI.write hcall hburst).1
    · exact hI.read hcall hburst
  | close writable =>
    obtain ⟨_, t₁, s₁, t₂, hclose, hpure, rfl⟩ := runs_bind.1 h
    obtain ⟨rfl, rfl, rfl⟩ := runs_pure.1 hpure
    obtain ⟨rfl, hprocs, pi, hpi, hclosed⟩ := runs_pipeclose hclose
    refine hI.quiet rfl (fun pi' hpi' => ?_) fun q => .inl ⟨by rw [hprocs], rfl⟩
    rcases hclosed with hfreed | ⟨pi₁, hpi₁, hrest⟩
    · cases hfreed.symm.trans hpi'
    · obtain rfl := Option.mem_unique hpi₁ hpi'
      exact ⟨pi, hpi, hrest⟩
  | kill p =>
    rw [Pipes.step, (modify_runs _ s).silent_iff, runs_pure] at h
    obtain ⟨rfl, rfl, rfl⟩ := h
    refine hI.quiet rfl (fun pi hpi => ⟨pi, hpi, rfl, id⟩) fun q => .inl ⟨?_, rfl⟩
    rcases eq_or_ne q p with rfl | hq
    · simp only [State.kill, update_self]
    · simp only [State.kill, update_of_ne hq]
  | elsewhere mem tables =>
    rw [Pipes.step, (modify_runs _ s).silent_iff, runs_pure] at h
    obtain ⟨rfl, rfl, rfl⟩ := h
    exact hI.quiet rfl (fun pi hpi => ⟨pi, hpi, rfl, id⟩) fun q => .inl ⟨rfl, rfl⟩

/-- A read is exact if and only if no byte that it was about to take faults. -/
theorem readExact_iff {n v : ℤ} {b : Burst} {s₁ : State}
    (hcall : (s.procs p).call = .reading addr n) (h : Runs (piperead p addr n) s b t s₁)
    (hb : b.value = some v) {e : Rec} (he : e = ⟨s, .run p, (b.value, t), s₁.setCall p b.call⟩) :
    ReadExact (e :: l) e p addr v ↔ Deliverable s p := by
  have hevents : takes (callEvents p (e :: l)) = takes t := by
    subst he
    rw [callEvents_run rfl, if_pos rfl, takes_append, hI.reading p addr n hcall, List.nil_append]
  subst he
  rcases piperead_runs hI.valid h with ⟨rfl, rfl, ⟨pi, hpi, hzero⟩, hb'⟩ |
    ⟨_, pi, bs, pi', mem, rfl, hpi, hreads⟩
  · -- killed while the pipe was empty
    have hv : v.toNat = 0 := by
      rcases hb' with rfl | rfl
      · cases hb
        rfl
      · cases hb
    refine iff_of_true ⟨?_, ?_, ?_⟩ ?_
    · rw [hevents, hv]
      rfl
    · intro k hk
      omega
    · rw [hevents]
      rfl
    · intro addr' n' pi₁ _ hpi₁ k hk
      obtain rfl := Option.mem_unique hpi hpi₁
      omega
  · cases hb
    obtain ⟨rfl, rfl, -, hcontents, hrounds, hdel⟩ := hreads
    rw [takes_map_take] at hevents
    have hle : bs.length ≤ pi.count := by
      rw [← Pipe.length_contents, hcontents, List.length_append]
      exact Nat.le_add_right _ _
    rcases hdel with ⟨rfl, hmin, hmap, rfl⟩ | ⟨j, hj, rfl, hfault⟩
    · refine iff_of_true ⟨?_, ?_, ?_⟩ ?_
      · rw [hevents]
        omega
      · intro k hk
        have := hmap k (by omega)
        rwa [Nat.zero_add] at this
      · rw [hevents]
        rfl
      · intro addr' n' pi₁ hcall' hpi₁ k hk
        cases hcall.symm.trans hcall'
        obtain rfl := Option.mem_unique hpi hpi₁
        have := hmap k (by omega)
        rwa [Nat.zero_add] at this
    · rw [Nat.zero_add] at hfault
      refine iff_of_false ?_ ?_
      · intro hexact
        have := hexact.taken
        rw [hevents] at this
        omega
      · intro hdel
        exact hdel addr n pi hcall hpi j (by omega) hfault

/-- The latest step. -/
theorem latest (h : Prog.Runs (Pipes.step a) s r t s') {e : Rec} (he : e = ⟨s, a, (r, t), s'⟩) :
    (∀ p v, e.WriteReturns p v → 0 ≤ v → ((puts (callEvents p (e :: l))).length : ℤ) = v) ∧
      ∀ p addr v, e.ReadReturns p addr v →
        (ReadExact (e :: l) e p addr v ↔ Deliverable e.before p) := by
  constructor
  · rintro p v ⟨hrun, ⟨addr, n, i, hcall⟩, hvalue⟩ hnonneg
    rw [callEvents_run hrun, if_pos rfl]
    subst he hrun hvalue
    obtain ⟨b, s₁, hb, rfl, ⟨addr', n', i', hcall', hburst⟩ | ⟨addr', n', hcall', -⟩⟩ := runs_run h
    · exact (hI.write hcall' hburst).2 v hb.symm hnonneg
    · cases hcall.symm.trans hcall'
  · rintro p addr v ⟨hrun, ⟨n, hcall⟩, hvalue⟩
    subst he hrun hvalue
    obtain ⟨b, s₁, hb, rfl, ⟨addr', n', i', hcall', -⟩ | ⟨addr', n', hcall', hburst⟩⟩ := runs_run h
    · cases hcall.symm.trans hcall'
    · cases hcall.symm.trans hcall'
      exact hI.readExact_iff hcall hburst hb.symm (by rw [hb])

end

end Inv

/-- The latest step of a run counts the bytes that it puts in, and is exact if it does not fault. -/
def LatestSound (l : List Rec) : Prop :=
  ∀ e l', l = e :: l' →
    (∀ p v, Rec.WriteReturns e p v → 0 ≤ v → ((puts (callEvents p l)).length : ℤ) = v) ∧
      ∀ p addr v, Rec.ReadReturns e p addr v → (ReadExact l e p addr v ↔ Deliverable e.before p)

/-- **Every run keeps the bytes**, and a read in it is exact if and only if it does not fault. -/
theorem readsExactIff : ReadsExactIff := by
  intro s₀ hs₀ l s hrun
  have hI : Inv l s ∧ LatestSound l := by
    refine hrun.inv (fun l s => Inv l s ∧ LatestSound l) ⟨inv_start hs₀, fun e l' h => ?_⟩ ?_
    · cases h
    · rintro l s a ⟨r, t⟩ s' ⟨hI, -⟩ - hret
      have hstep := returns_traced.1 hret
      refine ⟨hI.step hstep, fun e l' h => ?_⟩
      cases h
      exact hI.latest hstep rfl
  obtain ⟨hI, hlatest⟩ := hI
  exact ⟨⟨fun pi hpi => (hI.valid pi hpi).count_le, hI.fifo, hI.kept,
    fun e l' h => (hlatest e l' h).1⟩, fun e l' h => (hlatest e l' h).2⟩

/-- A run whose steps are allowed is a run. -/
theorem run_unrestricted {ok : State → Action → Prop} {s₀ : State}
    (h : Run (fun a => traced (Pipes.step a)) ok s₀ l s) :
    Run (fun a => traced (Pipes.step a)) (fun _ _ => True) s₀ l s := by
  induction h with
  | start => exact .start
  | next _ _ hret ih => exact ih.next trivial hret

/-- **Pipes lose and duplicate nothing** in runs in which the bytes that readers take can be stored.
In any other run everything but the bytes of a faulting read is as it should be, by `readsExactIff`,
and such a read has taken a byte that it neither delivers nor counts. -/
theorem pipes_exact {s₀ : State} (hs₀ : Fresh s₀)
    (hrun : Run (fun a => traced (Pipes.step a)) NoReadFaults s₀ l s) :
    Kept l s ∧ ∀ e l', l = e :: l' → ∀ p addr v, Rec.ReadReturns e p addr v →
      ReadExact l e p addr v := by
  obtain ⟨hkept, hreads⟩ := readsExactIff s₀ hs₀ l s (run_unrestricted hrun)
  refine ⟨hkept, ?_⟩
  rintro e l' rfl p addr v hret
  refine (hreads e l' rfl p addr v hret).2 ?_
  -- the latest step was allowed
  cases hrun with
  | next _ hok _ =>
    obtain ⟨hcall, -, -⟩ := hret
    subst hcall
    exact hok

end Runs

/-! ### A byte that arrives, and a byte that is lost -/

section Runs

instance (s : State) (p : ℕ) : Decidable (Deliverable s p) :=
  match hcall : (s.procs p).call, hpipe : s.pipe with
  | .reading addr n, some pi =>
    decidable_of_iff
      (∀ k < min n.toNat pi.count, walkaddr (s.procs p).pagetable (address addr k) ≠ 0)
      (by rw [Deliverable, hcall, hpipe]; grind)
  | .idle, _ | .writing .., _ | .reading .., none => .isTrue (by rw [Deliverable, hcall]; grind)

instance (s : State) : DecidablePred (NoReadFaults s)
  | .run p => inferInstanceAs (Decidable (Deliverable s p))
  | .write .. | .read .. | .close _ | .kill _ | .elsewhere .. => inferInstanceAs (Decidable True)

/-- A page table that maps every address to one page of RAM. -/
def onePage (pte : Pte) : PageTable := fun _ => some fun _ => some fun _ => pte

/-- A new pipe, and processes with the given page tables; the byte at `0x80100000` is `5`. -/
def users (tables : ℕ → PageTable) : State where
  pipe := some (.alloc fun _ => 0)
  mem := update (fun _ => 0) 0x80100000 (.ofNat 8 5)
  procs := fun p => ⟨tables p, false, .idle⟩

theorem fresh_users (tables : ℕ → PageTable) : Fresh (users tables) := ⟨⟨_, rfl⟩, fun _ => rfl⟩

/-- Process `0` has the page at `0x80100000`, and the others the page at `0x80101000`. -/
def twoPages : State := users fun p => onePage (if p = 0 then 0x20040017 else 0x20040417)

/-- Process `1` waits for two bytes, and process `0` writes one. -/
def waitAndWrite : List Action := [.read 1 0 2, .run 1, .write 0 0 1, .run 0]

/-- Process `1` is woken up and gets the byte. -/
theorem pipes_exact_relay : ∃ (e : Rec) (l : List Rec) (s : State),
    Run (fun a => traced (step a)) NoReadFaults twoPages (e :: l) s ∧ Kept (e :: l) s ∧
    Rec.ReadReturns e 1 0 1 ∧ ReadExact (e :: l) e 1 0 1 ∧
    puts (history (e :: l)) = [.ofNat 8 5] ∧ s.mem 0x80101000 = .ofNat 8 5 := by
  have hwrite : Run (fun a => traced (step a)) NoReadFaults twoPages _
      (Reach.after (fun a => traced (step a)) waitAndWrite twoPages) :=
    .of_allows_start (by decide +kernel)
  have hwoken : NoReadFaults (Reach.after (fun a => traced (step a)) waitAndWrite twoPages)
      (.run 1) := by decide +kernel
  have hread := hwrite.next hwoken
    (returns_of_eval (a := (some 1, [.take (.ofNat 8 5)])) (by decide +kernel))
  obtain ⟨hkept, hexact⟩ := pipes_exact (fresh_users _) hread
  have hcall : ((Reach.after (fun a => traced (step a)) waitAndWrite twoPages).procs 1).call =
      .reading 0 2 := by decide +kernel
  exact ⟨_, _, _, hread, hkept, ⟨rfl, ⟨2, hcall⟩, rfl⟩,
    hexact _ _ rfl 1 0 1 ⟨rfl, ⟨2, hcall⟩, rfl⟩, by decide +kernel, by decide +kernel⟩

/-- Process `0` has the page at `0x80100000`, and the others have no memory. -/
def unmappedReader : State := users fun p => if p = 0 then onePage 0x20040017 else fun _ => none

/-- **`piperead` loses a byte**: process `0` writes one, and process `1` reads it to an address that
is not mapped. -/
theorem piperead_loses_byte : ¬ PipesExact fun _ _ => True := by
  intro hexact
  have hwrite : Run (fun a => traced (step a)) (fun _ _ => True) unmappedReader _
      (Reach.after (fun a => traced (step a)) waitAndWrite unmappedReader) :=
    .of_allows_start (by decide +kernel)
  have hread := hwrite.next (c := .run 1) trivial
    (returns_of_eval (a := (some 0, [.take (.ofNat 8 5)])) (by decide +kernel))
  have hlost := (hexact _ (fresh_users _) _ _ hread).2 _ _ rfl 1 0 0
    ⟨rfl, ⟨2, by decide +kernel⟩, rfl⟩
  -- one byte was taken out, and none was counted
  exact absurd hlost.taken (by decide +kernel)

end Runs

end RaidSystem.Pipes
