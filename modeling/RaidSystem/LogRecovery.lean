/-
**The log: transactions survive a crash.**

`commit()` (`kernel/log.c`) copies the blocks of a transaction to the log area, writes the header of
the log, copies the blocks to their places, and erases the header.  When the machine stops in
between, `recover_from_log` reads the header and copies the blocks once more.  The blocks of a
transaction that is not committed yet live in the buffer cache only, and are pinned there; all other
buffers hold what is on the disk, and may be given away at any time.

Main definitions:

* `State`, `bread`, `bwrite`, `brelse`, `bpin`, `bunpin` — the disk and the buffer cache, with other
  processes that read blocks and take over unused buffers;
* `logWrite`, `commit`, `recoverFromLog` — the functions of the log;
* `transaction` — the updates of a transaction between `begin_op` and `end_op`;
* `CrashesAfter`, `Interrupted` — runs that are cut off in a transaction, and recoveries that are
  cut off;
* `View`, `Sees` — the disk and the blocks as the file system sees them through the cache;
* `Logged` — what the disk stands for: the blocks in the log replace those at home.

Main results:

* `logWrite_refines` — `log_write` counts as it does in `LogAdmission`;
* `safe_bread`, …, `safe_bunpin` — the cache as seen from outside;
* `safe_commit`, `safe_recoverFromLog` — what the disk stands for at every moment;
* `transactions_return` — transactions that fit into the log are carried out;
* `crash_atomic` — **after a crash and any number of interrupted recoveries, recovery restores the
  state after some of the transactions, with all those that were committed**.
-/

import Mathlib.Data.Finset.Basic
import Mathlib.Data.Finset.Insert
import Mathlib.Tactic.Simps.Basic
import RaidSystem.CrashLogic
import RaidSystem.DiskFormat
import RaidSystem.LogAdmission

set_option autoImplicit false

namespace RaidSystem.LogRecovery

open Prog
open Function (update_apply update_eq_self update_eq_self_iff update_idem update_of_ne update_self)
open Fs (Block Disk word setWord word_setWord)
open Log (Logheader logsize maxopblocks)

/-! ### The buffer cache -/

/-- `log.start` and `log.size`. -/
structure Layout where
  start : ℕ
  size : ℕ

/-- The disk; the buffers by the blocks that they carry, with `refcnt` and the sleep locks; `log.lh`
and `log.outstanding`; and what the other processes do: whether block `b` is in the cache when they
have run for the `k`-th time, if nobody holds it. -/
structure State where
  disk : Disk
  data : ℕ → Option Block
  refcnt : ℕ → ℕ
  locked : ℕ → Bool
  lh : Logheader
  outstanding : ℕ
  others : ℕ → ℕ → Bool
  clock : ℕ

/-- The panics; a process that waits for a buffer it holds, or for a commit; and a header on the
disk that does not fit into `struct logheader`. -/
inductive Fault
  | tooBigATransaction
  | outsideOfTrans
  | notHeld
  | deadlock
  | sleeps
  | badHeader
deriving DecidableEq

/-- The accesses are the writes to the disk. -/
abbrev Kernel := Prog State (ℕ × Block) Fault

namespace State

/-- What a reader of block `b` sees: the buffer, or else the disk. -/
def content (s : State) (b : ℕ) : Block := (s.data b).getD (s.disk b)

/-- Other processes run: buffers that nobody uses may come and go. -/
def interfere (s : State) : State :=
  { s with
    data := fun b =>
      if s.refcnt b = 0 then (if s.others s.clock b then some (s.content b) else none) else s.data b
    clock := s.clock + 1 }

/-- The buffer for `b` is filled, referenced and locked. -/
def take (s : State) (b : ℕ) : State :=
  { s with
    data := Function.update s.data b (some (s.content b))
    refcnt := Function.update s.refcnt b (s.refcnt b + 1)
    locked := Function.update s.locked b true }

def release (s : State) (b : ℕ) : State :=
  { s with
    refcnt := Function.update s.refcnt b (s.refcnt b - 1)
    locked := Function.update s.locked b false }

def pin (s : State) (b : ℕ) : State :=
  { s with refcnt := Function.update s.refcnt b (s.refcnt b + 1) }

def unpin (s : State) (b : ℕ) : State :=
  { s with refcnt := Function.update s.refcnt b (s.refcnt b - 1) }

/-- The data of the buffer for `b` are replaced. -/
def store (s : State) (b : ℕ) (d : Block) : State :=
  { s with data := Function.update s.data b (some d) }

/-- The buffer for `b` is written to the disk. -/
def flush (s : State) (b : ℕ) : State :=
  { s with disk := Function.update s.disk b (s.content b) }

end State

def bread (b : ℕ) : Kernel Unit := do
  modify State.interfere
  let s ← get
  if s.locked b then fail .deadlock else modify fun s => s.take b

def bwrite (b : ℕ) : Kernel Unit := do
  let s ← get
  if s.locked b then do
    emit (b, s.content b)
    modify fun s => s.flush b
  else fail .notHeld

def brelse (b : ℕ) : Kernel Unit := do
  let s ← get
  if s.locked b then modify fun s => s.release b else fail .notHeld

def bpin (b : ℕ) : Kernel Unit := modify fun s => s.pin b

def bunpin (b : ℕ) : Kernel Unit := modify fun s => s.unpin b

/-- `memmove` of the data of one buffer to another. -/
def memmove (dst src : ℕ) : Kernel Unit := modify fun s => s.store dst (s.content src)

/-! ### The log -/

/-- The header in a block: the number of blocks, and after it their home addresses. -/
def encode (lh : Logheader) (d : Block) : Block :=
  (List.range lh.n).foldl (fun d i => setWord d (i + 1) (lh.block i)) (setWord d 0 lh.n)

/-- The loops go up to `n`, which is of type `int`. -/
def count (w : ℕ) : ℕ := if w < 2 ^ 31 then w else 0

section Functions

variable (l : Layout)

def logWrite (b : ℕ) : Kernel Unit := do
  let s ← get
  if logsize ≤ s.lh.n ∨ l.size - 1 ≤ s.lh.n then fail .tooBigATransaction
  else if s.outstanding < 1 then fail .outsideOfTrans
  else do
    if s.lh.search b 0 s.lh.n = s.lh.n then bpin b else pure ()
    modify fun s => { s with lh := s.lh.record b }

/-- `if(recovering == 0) bunpin(dbuf)`. -/
def unpinUnless (recovering : Bool) (b : ℕ) : Kernel Unit :=
  if recovering then pure () else bunpin b

/-- `install_trans`. -/
def installTrans (recovering : Bool) : Kernel Unit := do
  let s ← get
  forRange (fun tail => do
    let s ← get
    bread (l.start + tail + 1)
    bread (s.lh.block tail)
    memmove (s.lh.block tail) (l.start + tail + 1)
    bwrite (s.lh.block tail)
    unpinUnless recovering (s.lh.block tail)
    brelse (l.start + tail + 1)
    brelse (s.lh.block tail)) 0 s.lh.n

/-- `read_head`. -/
def readHead : Kernel Unit := do
  bread l.start
  let s ← get
  if logsize < count (word (s.content l.start) 0) then fail .badHeader
  else do
    modify fun s =>
      let n := count (word (s.content l.start) 0)
      { s with lh := ⟨n, fun i => if i < n then word (s.content l.start) (i + 1)
        else s.lh.block i⟩ }
    brelse l.start

/-- `write_head`. -/
def writeHead : Kernel Unit := do
  bread l.start
  modify fun s => s.store l.start (encode s.lh (s.content l.start))
  bwrite l.start
  brelse l.start

/-- `log.lh.n = 0`. -/
def clear : Kernel Unit := modify fun s => { s with lh := { s.lh with n := 0 } }

/-- `recover_from_log`. -/
def recoverFromLog : Kernel Unit := do
  readHead l
  installTrans l true
  clear
  writeHead l

/-- `write_log`. -/
def writeLog : Kernel Unit := do
  let s ← get
  forRange (fun tail => do
    let s ← get
    bread (l.start + tail + 1)
    bread (s.lh.block tail)
    memmove (l.start + tail + 1) (s.lh.block tail)
    bwrite (l.start + tail + 1)
    brelse (s.lh.block tail)
    brelse (l.start + tail + 1)) 0 s.lh.n

def commit : Kernel Unit := do
  let s ← get
  if 0 < s.lh.n then do
    writeLog l
    writeHead l
    installTrans l false
    clear
    writeHead l
  else pure ()

/-! ### Transactions -/

/-- A transaction: blocks, and how their contents change. -/
abbrev Transaction := List (ℕ × (Block → Block))

/-- One update, as the file system makes it. -/
def update (p : ℕ × (Block → Block)) : Kernel Unit := do
  bread p.1
  modify fun s => s.store p.1 (p.2 (s.content p.1))
  logWrite l p.1
  brelse p.1

def updates : Transaction → Kernel Unit
  | [] => pure ()
  | p :: t => do
    update l p
    updates t

/-- `begin_op`, for an operation that is the only one. -/
def beginOp : Kernel Unit := do
  let s ← get
  if s.lh.n + (s.outstanding + 1) * maxopblocks > logsize then fail .sleeps
  else modify fun s => { s with outstanding := s.outstanding + 1 }

/-- `end_op`: the last operation commits. -/
def endOp : Kernel Unit := do
  modify fun s => { s with outstanding := s.outstanding - 1 }
  let s ← get
  if s.outstanding = 0 then commit l else pure ()

def transaction (t : Transaction) : Kernel Unit := do
  beginOp
  updates l t
  endOp l

/-- Transactions one after the other. -/
def transactions : List Transaction → Kernel Unit
  | [] => pure ()
  | t :: ts => do
    transaction l t
    transactions ts

end Functions

/-! ### The counters -/

section Counters

variable {l : Layout} {a : Log.State} {s s' : State} {b : ℕ}

/-- What `LogAdmission` keeps of the log. -/
structure Counts (a : Log.State) (s : State) : Prop where
  lh : a.lh = s.lh
  outstanding : a.outstanding = s.outstanding

/-- **`log_write` counts as it does in `LogAdmission`**: the same block is recorded there, and the
panic is the same. -/
theorem logWrite_refines (h : Counts a s) :
    (Returns (logWrite l b) s () s' →
      ∃ a', Returns (Log.logWrite l.size b) a () a' ∧ Counts a' s') ∧
    (Fails (logWrite l b) s .tooBigATransaction ↔
      Fails (Log.logWrite l.size b) a .tooBigATransaction) := by
  obtain ⟨hlh, hout⟩ := h
  rw [Log.fails_logWrite_tooBig, logWrite, get_returns.bind_iff, get_returns.fails_bind_iff, hlh]
  by_cases hbig : logsize ≤ s.lh.n ∨ l.size - 1 ≤ s.lh.n
  · rw [if_pos hbig]
    exact ⟨fun h => absurd h not_returns_fail, iff_of_true (fails_fail.2 rfl) hbig⟩
  rw [if_neg hbig]
  by_cases hop : s.outstanding < 1
  · rw [if_pos hop]
    exact ⟨fun h => absurd h not_returns_fail, iff_of_false (fun h => by cases fails_fail.1 h) hbig⟩
  rw [if_neg hop]
  have hcounted : Returns (Log.logWrite l.size b) a () { a with lh := a.lh.record b } :=
    Log.returns_logWrite.2 ⟨by rw [hlh]; omega, by rw [hout]; omega, rfl⟩
  have hrecord : ∀ s₁ : State, s₁.lh = s.lh → s₁.outstanding = s.outstanding →
      Counts { a with lh := a.lh.record b } { s₁ with lh := s₁.lh.record b } := by
    intro s₁ hlh₁ hout₁
    exact ⟨by rw [hlh, hlh₁], hout.trans hout₁.symm⟩
  -- pinning the block changes neither the header nor the count
  dsimp only
  split_ifs
  · have hpin : Returns (bpin b) s () (s.pin b) := returns_modify.2 rfl
    rw [hpin.bind_iff, hpin.fails_bind_iff, returns_modify]
    refine ⟨?_, iff_of_false not_fails_modify hbig⟩
    rintro rfl
    exact ⟨_, hcounted, hrecord (s.pin b) rfl rfl⟩
  · rw [returns_modify]
    refine ⟨?_, iff_of_false not_fails_modify hbig⟩
    rintro rfl
    exact ⟨_, hcounted, hrecord s rfl rfl⟩

end Counters

/-! ### Crashes -/

/-- A write changes one block of the disk. -/
def act (d : Disk) (w : ℕ × Block) : Disk := Function.update d w.1 w.2

/-- The memory after the machine was started. -/
def boot (others : ℕ → ℕ → Bool) (d : Disk) : State :=
  ⟨d, fun _ => none, fun _ => 0, fun _ => false, ⟨0, fun _ => 0⟩, 0, others, 0⟩

/-- The first `k` of the transactions returned, and the next one was cut off when the disk was
`d`. -/
inductive CrashesAfter (l : Layout) : List Transaction → State → ℕ → Disk → Prop
  | idle {s : State} : CrashesAfter l [] s 0 s.disk
  | now {t : Transaction} {ts : List Transaction} {s : State} {w : List (ℕ × Block)}
      (h : CutOff (transaction l t) s w) : CrashesAfter l (t :: ts) s 0 (w.foldl act s.disk)
  | later {t : Transaction} {ts : List Transaction} {s s' : State} {u : Unit} {k : ℕ} {d : Disk}
      (h : Returns (transaction l t) s u s') (hrest : CrashesAfter l ts s' k d) :
      CrashesAfter l (t :: ts) s (k + 1) d

/-- Any number of recoveries was cut off. -/
inductive Interrupted (l : Layout) : Disk → Disk → Prop
  | none {d : Disk} : Interrupted l d d
  | again {d d' : Disk} {others : ℕ → ℕ → Bool} {w : List (ℕ × Block)} (h : Interrupted l d d')
      (hcut : CutOff (recoverFromLog l) (boot others d') w) : Interrupted l d (w.foldl act d')

/-- The log area begins with its header and can be addressed. -/
structure Layout.Sound (l : Layout) : Prop where
  header : 1 ≤ l.size
  small : l.start + l.size < 2 ^ 31

/-- Block `b` lies outside of the log area. -/
def Layout.Home (l : Layout) (b : ℕ) : Prop := b < l.start ∨ l.start + l.size ≤ b

/-- A transaction changes blocks outside of the log area; block numbers are of type `uint`. -/
def Within (l : Layout) (t : Transaction) : Prop := ∀ p ∈ t, l.Home p.1 ∧ p.1 < 2 ^ 32

/-- What a transaction does to the blocks. -/
def apply (t : Transaction) (d : Disk) : Disk :=
  t.foldl (fun d p => Function.update d p.1 (p.2 (d p.1))) d

def applyAll (ts : List Transaction) (d : Disk) : Disk := ts.foldl (fun d t => apply t d) d

/-! ### The cache seen from outside -/

/-- The disk, the blocks as they appear to a reader, the locks that are held, and the log. -/
@[ext] structure View where
  disk : Disk
  content : Disk
  locked : ℕ → Bool
  lh : Logheader
  outstanding : ℕ

namespace View

@[simps] def lock (v : View) (b : ℕ) : View := { v with locked := Function.update v.locked b true }

@[simps] def unlock (v : View) (b : ℕ) : View :=
  { v with locked := Function.update v.locked b false }

@[simps] def put (v : View) (b : ℕ) (d : Block) : View :=
  { v with content := Function.update v.content b d }

@[simps] def flush (v : View) (b : ℕ) : View :=
  { v with disk := Function.update v.disk b (v.content b) }

end View

/-- The state looks like `v`, and exactly the blocks of `P` are pinned: only these and the locked
ones may differ from the disk. -/
structure Sees (P : Finset ℕ) (s : State) (v : View) : Prop where
  disk : s.disk = v.disk
  content : ∀ b, s.content b = v.content b
  locked : s.locked = v.locked
  lh : s.lh = v.lh
  outstanding : s.outstanding = v.outstanding
  refcnt : ∀ b, s.refcnt b = (if b ∈ P then 1 else 0) + if v.locked b then 1 else 0
  cached : ∀ b, s.refcnt b ≠ 0 → s.data b = some (v.content b)
  clean : ∀ b ∉ P, v.locked b = false → v.content b = v.disk b

section Cache

variable {P : Finset ℕ} {s : State} {v : View} {b : ℕ} {d : Block}

theorem Sees.interfere (h : Sees P s v) : Sees P s.interfere v := by
  refine ⟨h.disk, fun c => ?_, h.locked, h.lh, h.outstanding, h.refcnt, fun c hc => ?_, h.clean⟩
  · have hcontent : s.interfere.content c =
        ((if s.refcnt c = 0 then (if s.others s.clock c then some (s.content c) else none)
          else s.data c).getD (s.disk c)) := rfl
    rw [hcontent]
    split_ifs with hzero hkept
    · exact h.content c
    · -- the buffer was given away: it held what is on the disk
      have href := h.refcnt c
      rw [hzero] at href
      have hP : c ∉ P := by
        intro hmem
        rw [if_pos hmem] at href
        omega
      have hlocked : v.locked c = false := by
        cases hl : v.locked c with
        | false => rfl
        | true =>
          rw [hl, if_pos rfl] at href
          omega
      rw [Option.getD_none, h.clean c hP hlocked, h.disk]
    · exact h.content c
  · exact (if_neg hc).trans (h.cached c hc)

theorem Sees.take (h : Sees P s v) (hb : v.locked b = false) : Sees P (s.take b) (v.lock b) := by
  refine ⟨h.disk, fun c => ?_, ?_, h.lh, h.outstanding, fun c => ?_, fun c hc => ?_,
    fun c hP hl => ?_⟩
  · change (Function.update s.data b (some (s.content b)) c).getD (s.disk c) = v.content c
    rcases eq_or_ne c b with rfl | hc
    · rw [update_self]
      exact h.content c
    · rw [update_of_ne hc]
      exact h.content c
  · change Function.update s.locked b true = Function.update v.locked b true
    rw [h.locked]
  · change Function.update s.refcnt b (s.refcnt b + 1) c =
      (if c ∈ P then 1 else 0) + if Function.update v.locked b true c then 1 else 0
    rcases eq_or_ne c b with rfl | hc
    · rw [update_self, update_self, h.refcnt c, hb]
      simp
    · rw [update_of_ne hc, update_of_ne hc, h.refcnt c]
  · change Function.update s.data b (some (s.content b)) c = some (v.content c)
    rcases eq_or_ne c b with rfl | hne
    · rw [update_self, h.content c]
    · rw [update_of_ne hne]
      refine h.cached c ?_
      change Function.update s.refcnt b (s.refcnt b + 1) c ≠ 0 at hc
      rwa [update_of_ne hne] at hc
  · change Function.update v.locked b true c = false at hl
    rcases eq_or_ne c b with rfl | hc
    · rw [update_self] at hl
      cases hl
    · rw [update_of_ne hc] at hl
      exact h.clean c hP hl

section

variable (h : Sees P s v) (hb : v.locked b = true)

include h hb

theorem Sees.store : Sees P (s.store b d) (v.put b d) := by
  refine ⟨h.disk, fun c => ?_, h.locked, h.lh, h.outstanding, h.refcnt, fun c hc => ?_,
    fun c hP hl => ?_⟩
  · change (Function.update s.data b (some d) c).getD (s.disk c) = Function.update v.content b d c
    rcases eq_or_ne c b with rfl | hc
    · rw [update_self, update_self, Option.getD_some]
    · rw [update_of_ne hc, update_of_ne hc]
      exact h.content c
  · change Function.update s.data b (some d) c = some (Function.update v.content b d c)
    rcases eq_or_ne c b with rfl | hne
    · rw [update_self, update_self]
    · rw [update_of_ne hne, update_of_ne hne]
      exact h.cached c hc
  · change Function.update v.content b d c = v.disk c
    have hc : c ≠ b := by
      rintro rfl
      rw [show v.locked c = false from hl] at hb
      cases hb
    rw [update_of_ne hc]
    exact h.clean c hP hl

theorem Sees.flush : Sees P (s.flush b) (v.flush b) := by
  have href : s.refcnt b ≠ 0 := by
    rw [h.refcnt b, hb, if_pos rfl]
    omega
  refine ⟨?_, fun c => ?_, h.locked, h.lh, h.outstanding, h.refcnt, h.cached, fun c hP hl => ?_⟩
  · change Function.update s.disk b (s.content b) = Function.update v.disk b (v.content b)
    rw [h.disk, h.content b]
  · change (s.data c).getD (Function.update s.disk b (s.content b) c) = v.content c
    rcases eq_or_ne c b with rfl | hc
    · rw [h.cached c href, Option.getD_some]
    · rw [update_of_ne hc]
      exact h.content c
  · change v.content c = Function.update v.disk b (v.content b) c
    rcases eq_or_ne c b with rfl | hc
    · rw [update_self]
    · rw [update_of_ne hc]
      exact h.clean c hP hl

/-- The buffer of a locked block is counted anew, and perhaps unlocked: what it holds stays. -/
theorem Sees.recount {P' : Finset ℕ} {n : ℕ} {x : Bool}
    (hn : n = (if b ∈ P' then 1 else 0) + if x then 1 else 0) (hP : ∀ c ≠ b, (c ∈ P' ↔ c ∈ P))
    (hclean : b ∉ P' → x = false → v.content b = v.disk b) :
    Sees P' { s with
      refcnt := Function.update s.refcnt b n
      locked := Function.update s.locked b x }
      { v with locked := Function.update v.locked b x } := by
  refine ⟨h.disk, h.content, by rw [h.locked], h.lh, h.outstanding, fun c => ?_, fun c hc => ?_,
    fun c hc hl => ?_⟩
  · rcases eq_or_ne c b with rfl | hne
    · simpa using hn
    · simp only [update_of_ne hne, h.refcnt c, hP c hne]
  · rcases eq_or_ne c b with rfl | hne
    · exact h.cached c (by simp [h.refcnt c, hb])
    · simp only [update_of_ne hne] at hc
      exact h.cached c hc
  · rcases eq_or_ne c b with rfl | hne
    · exact hclean hc (by simpa using hl)
    · simp only [update_of_ne hne] at hl
      exact h.clean c (mt (hP c hne).2 hc) hl

theorem Sees.release (hclean : b ∈ P ∨ v.content b = v.disk b) :
    Sees P (s.release b) (v.unlock b) :=
  h.recount hb (by simp [h.refcnt b, hb]) (fun _ _ => Iff.rfl) fun hP _ => hclean.resolve_left hP

/-- Counting alone keeps the lock. -/
theorem Sees.repin {P' : Finset ℕ} {n : ℕ} (hn : n = (if b ∈ P' then 1 else 0) + 1)
    (hP : ∀ c ≠ b, (c ∈ P' ↔ c ∈ P)) :
    Sees P' { s with refcnt := Function.update s.refcnt b n } v := by
  have hcount := h.recount (x := true) hb hn hP (by simp)
  have hlock : Function.update v.locked b true = v.locked := by rw [← hb, update_eq_self]
  simpa only [h.locked, hlock] using hcount

theorem Sees.pin (hP : b ∉ P) :
    Sees (insert b P) (s.pin b) v :=
  h.repin hb (by simp [h.refcnt b, hb, hP]) fun c hc => by simp [hc]

theorem Sees.unpin (hP : b ∈ P) :
    Sees (P.erase b) (s.unpin b) v :=
  h.repin hb (by simp [h.refcnt b, hb, hP]) fun c hc => by simp [hc]

end

/-- The counters of the log do not concern the buffers. -/
theorem Sees.setLog {lh lh' : Logheader} {n n' : ℕ} (h : Sees P s v) (hlh : lh = lh')
    (hn : n = n') :
    Sees P { s with lh := lh, outstanding := n } { v with lh := lh', outstanding := n' } :=
  ⟨h.disk, h.content, h.locked, hlh, hn, h.refcnt, h.cached, h.clean⟩

theorem Sees.on_disk {C : Disk → Prop} (h : Sees P s v) (hC : C v.disk) : C s.disk := by
  rwa [h.disk]

end Cache

/-- The judgement about cut-off programs, for the disk and its writes. -/
abbrev Safe {α : Type} (C : Disk → Prop) (E : Fault → Prop) (x : Kernel α) (s : State)
    (Q : α → State → Prop) : Prop := CrashSafe State.disk act C E x s Q

section Primitives

variable {P : Finset ℕ} {s : State} {v : View} {b : ℕ} {C : Disk → Prop} {E : Fault → Prop}

theorem safe_bread (h : Sees P s v) (hC : C v.disk) (hb : v.locked b = false) :
    Safe C E (bread b) s fun _ s' => Sees P s' (v.lock b) := by
  have hdisk := h.on_disk hC
  refine CrashSafe.bind (R := fun _ s' => s' = s.interfere) (CrashSafe.modify hdisk rfl rfl) ?_
  rintro _ _ rfl
  refine CrashSafe.get_bind hdisk ?_
  have hfree : ¬ s.interfere.locked b = true := by
    rw [h.interfere.locked, hb]
    exact Bool.false_ne_true
  rw [if_neg hfree]
  exact CrashSafe.modify hdisk rfl (h.interfere.take hb)

section

variable (h : Sees P s v) (hC : C v.disk) (hb : v.locked b = true)

include h hC hb

theorem safe_bwrite (hC' : C (v.flush b).disk) :
    Safe C E (bwrite b) s fun _ s' => Sees P s' (v.flush b) := by
  have hdisk := h.on_disk hC
  refine CrashSafe.get_bind hdisk ?_
  rw [h.locked, if_pos hb]
  refine CrashSafe.store hdisk ?_ rfl (h.flush hb)
  rwa [← (h.flush hb).disk] at hC'

theorem safe_brelse (hclean : b ∈ P ∨ v.content b = v.disk b) :
    Safe C E (brelse b) s fun _ s' => Sees P s' (v.unlock b) := by
  have hdisk := h.on_disk hC
  refine CrashSafe.get_bind hdisk ?_
  rw [h.locked, if_pos hb]
  exact CrashSafe.modify hdisk rfl (h.release hb hclean)

theorem safe_bpin (hP : b ∉ P) :
    Safe C E (bpin b) s fun _ s' => Sees (insert b P) s' v :=
  CrashSafe.modify (h.on_disk hC) rfl (h.pin hb hP)

theorem safe_bunpin (hP : b ∈ P) :
    Safe C E (bunpin b) s fun _ s' => Sees (P.erase b) s' v :=
  CrashSafe.modify (h.on_disk hC) rfl (h.unpin hb hP)

theorem safe_store {f : State → Block} {d : Block} (hd : f s = d) :
    Safe C E (modify fun s => s.store b (f s)) s fun _ s' => Sees P s' (v.put b d) := by
  refine CrashSafe.modify (by rwa [h.disk]) rfl ?_
  rw [hd]
  exact h.store hb

theorem safe_memmove {src : ℕ} :
    Safe C E (memmove b src) s fun _ s' => Sees P s' (v.put b (v.content src)) :=
  safe_store h hC hb (h.content src)

end

end Primitives

/-! ### Copying blocks -/

/-- Nothing is locked. -/
def View.Idle (v : View) : Prop := v.locked = fun _ => false

/-- The view after `src` was copied to `dst` and written. -/
def View.copy (v : View) (dst src : ℕ) : View :=
  { v with
    disk := Function.update v.disk dst (v.content src)
    content := Function.update v.content dst (v.content src) }

section Copying

variable {P : Finset ℕ} {s : State} {v : View} {C : Disk → Prop} {E : Fault → Prop} {dst src : ℕ}

/-- Two locks that were taken and given back. -/
theorem update_locks {g : ℕ → Bool} (hg : g = fun _ => false) {a b x y : ℕ}
    (hxy : (x = a ∧ y = b) ∨ (x = b ∧ y = a)) :
    Function.update (Function.update (Function.update (Function.update g a true) b true) x false)
      y false = g := by
  subst hg
  funext c
  simp only [update_apply]
  rcases hxy with ⟨rfl, rfl⟩ | ⟨rfl, rfl⟩ <;> split_ifs <;> rfl

/-- What the steps of a round do to the view. -/
theorem View.copy_eq (hidle : v.Idle) {a b x y : ℕ} (hxy : (x = a ∧ y = b) ∨ (x = b ∧ y = a)) :
    (((((v.lock a).lock b).put dst (v.content src)).flush dst).unlock x).unlock y =
      v.copy dst src := by
  refine View.ext ?_ rfl (update_locks hidle hxy) rfl rfl
  change Function.update v.disk dst (Function.update v.content dst (v.content src) dst) = _
  rw [update_self, View.copy]

section

variable (h : Sees P s v) (hidle : v.Idle) (hne : dst ≠ src)

include h hidle hne

/-- The two blocks are read, and one is copied to the other and written. -/
theorem safe_copied {a b : ℕ} {rest : Kernel Unit} {Q : Unit → State → Prop}
    (hab : (a = dst ∧ b = src) ∨ (a = src ∧ b = dst))
    (hC : C v.disk) (hC' : C (Function.update v.disk dst (v.content src)))
    (hrest : ∀ s', Sees P s' ((((v.lock a).lock b).put dst (v.content src)).flush dst) →
      C ((((v.lock a).lock b).put dst (v.content src)).flush dst).disk → Safe C E rest s' Q) :
    Safe C E (do bread a; bread b; memmove dst src; bwrite dst; rest) s Q := by
  have hfree : ∀ c, v.locked c = false := fun c => congrFun hidle c
  have hlocked : ((v.lock a).lock b).locked dst = true := by
    rcases hab with ⟨rfl, rfl⟩ | ⟨rfl, rfl⟩ <;> simp [hne]
  have hba : b ≠ a := by
    rcases hab with ⟨rfl, rfl⟩ | ⟨rfl, rfl⟩
    · exact hne.symm
    · exact hne
  have hC'' : C ((((v.lock a).lock b).put dst (v.content src)).flush dst).disk := by
    change C (Function.update v.disk dst (Function.update v.content dst (v.content src) dst))
    rwa [update_self]
  refine (safe_bread h hC (hfree a)).bind fun _ s₁ h₁ => ?_
  refine (safe_bread (b := b) h₁ hC (by simp [hfree, hba])).bind fun _ s₂ h₂ => ?_
  refine (safe_memmove h₂ hC hlocked).bind fun _ s₃ h₃ => ?_
  exact (safe_bwrite h₃ hC hlocked hC'').bind fun _ s₄ h₄ => hrest s₄ h₄ hC''

/-- One round of `write_log`. -/
theorem safe_writeLog_round (hC : C v.disk) (hC' : C (Function.update v.disk dst (v.content src))) :
    Safe C E (do bread dst; bread src; memmove dst src; bwrite dst; brelse src; brelse dst) s
      fun _ s' => Sees P s' (v.copy dst src) := by
  have hsrc : src ∈ P ∨ v.content src = v.disk src := by
    by_cases hP : src ∈ P
    · exact .inl hP
    · exact .inr (h.clean src hP (congrFun hidle src))
  refine safe_copied h hidle hne (.inl ⟨rfl, rfl⟩) hC hC' fun s₄ h₄ hC'' => ?_
  refine (safe_brelse (b := src) h₄ hC'' ?_ ?_).bind fun _ s₅ h₅ => ?_
  · simp
  · simpa [hne.symm] using hsrc
  refine (safe_brelse (b := dst) h₅ hC'' ?_ (.inr ?_)).post fun _ s' h' => ?_
  · simp [hne]
  · simp
  · rwa [← View.copy_eq hidle (.inr ⟨rfl, rfl⟩)]

/-- One round of `install_trans`: outside of a recovery, the block is not pinned any more. -/
theorem safe_installTrans_round {recovering : Bool} (hsrc : src ∉ P)
    (hdst : if recovering then dst ∉ P else dst ∈ P)
    (hC : C v.disk) (hC' : C (Function.update v.disk dst (v.content src))) :
    Safe C E (do
      bread src; bread dst; memmove dst src; bwrite dst; unpinUnless recovering dst
      brelse src; brelse dst) s fun _ s' => Sees (P.erase dst) s' (v.copy dst src) := by
  have hclean : v.content src = v.disk src := h.clean src hsrc (congrFun hidle src)
  refine safe_copied h hidle hne (.inr ⟨rfl, rfl⟩) hC hC' fun s₄ h₄ hC'' => ?_
  have hunpin : Safe C E (unpinUnless recovering dst) s₄ fun _ s' =>
      Sees (P.erase dst) s' ((((v.lock src).lock dst).put dst (v.content src)).flush dst) := by
    cases recovering with
    | true =>
      refine CrashSafe.pure (h₄.on_disk hC'') ?_
      rwa [Finset.erase_eq_of_notMem hdst]
    | false => exact safe_bunpin h₄ hC'' (by simp) hdst
  refine hunpin.bind fun _ s₅ h₅ => ?_
  refine (safe_brelse (b := src) h₅ hC'' ?_ (.inr ?_)).bind fun _ s₆ h₆ => ?_
  · simp [hne.symm]
  · simp [hne.symm, hclean]
  refine (safe_brelse (b := dst) h₆ hC'' ?_ (.inr ?_)).post fun _ s' h' => ?_
  · simp [hne]
  · simp
  · rwa [← View.copy_eq hidle (.inl ⟨rfl, rfl⟩)]

end

/-- The loops of `write_log` and `install_trans`: every round copies a block, and `R` says what the
copies have made of the view. -/
theorem safe_copyLoop {body : State → ℕ → Kernel Unit} {P : ℕ → Finset ℕ} (R : ℕ → View → Prop)
    (h : Sees (P 0) s v) (hidle : v.Idle) (hR : R 0 v) (hC : ∀ j v', R j v' → C v'.disk)
    (hround : ∀ j v' s', j < v.lh.n → Sees (P j) s' v' → v'.Idle → s'.lh = v.lh → R j v' →
      ∃ dst src, R (j + 1) (v'.copy dst src) ∧
        Safe C E (body s' j) s' fun _ s'' => Sees (P (j + 1)) s'' (v'.copy dst src)) :
    Safe C E (do
      let s ← get
      forRange (fun tail => do let s ← get; body s tail) 0 s.lh.n) s fun _ s' => ∃ v',
        Sees (P v.lh.n) s' v' ∧ v'.Idle ∧ v'.lh = v.lh ∧ v'.outstanding = v.outstanding ∧
        R v.lh.n v' := by
  let I : ℕ → State → Prop := fun j s => ∃ v', Sees (P j) s v' ∧ v'.Idle ∧ v'.lh = v.lh ∧
    v'.outstanding = v.outstanding ∧ R j v'
  have hI : ∀ j s, I j s → C s.disk := fun j s ⟨v', h', _, _, _, hR'⟩ => h'.on_disk (hC j v' hR')
  have hzero : I 0 s := ⟨v, h, hidle, rfl, rfl, hR⟩
  refine CrashSafe.get_bind (hI 0 s hzero) ?_
  rw [h.lh]
  refine (CrashSafe.forRange I hI (fun j s' _ hj hIj => ?_) hzero).post fun _ s' h' => ?_
  · refine CrashSafe.get_bind (hI j s' hIj) ?_
    obtain ⟨v', h', hidle', hlh, hout, hR'⟩ := hIj
    obtain ⟨dst, src, hnext, hsafe⟩ :=
      hround j v' s' (by omega) h' hidle' (h'.lh.trans hlh) hR'
    exact hsafe.post fun _ s'' h'' => ⟨_, h'', hidle', hlh, hout, hnext⟩
  · rwa [Nat.zero_add] at h'

end Copying

/-! ### The header -/

section Header

variable {lh : Logheader} {d : Block} {i j k : ℕ}

/-- The block `d` holds the header `lh`. -/
structure Holds (lh : Logheader) (d : Block) : Prop where
  n : word d 0 = lh.n
  block : ∀ i < lh.n, word d (i + 1) = lh.block i

theorem word_foldl (hk : k ≤ logsize) (hblock : ∀ i < k, lh.block i < 2 ^ 32) :
    word ((List.range k).foldl (fun d i => setWord d (i + 1) (lh.block i)) d) j =
      if 1 ≤ j ∧ j ≤ k then lh.block (j - 1) else word d j := by
  induction k with
  | zero =>
    rw [if_neg (by omega)]
    rfl
  | succ k ih =>
    have hrest := ih (by omega) fun i hi => hblock i (by omega)
    have hbound : k + 1 < Fs.nindirect := by
      simp only [Fs.nindirect, Fs.bsize, logsize] at hk ⊢
      omega
    rw [List.range_succ, List.foldl_append, List.foldl_cons, List.foldl_nil,
      word_setWord hbound (hblock k (by omega)), hrest]
    rcases eq_or_ne j (k + 1) with rfl | hj
    · rw [if_pos rfl, if_pos (by omega), Nat.add_sub_cancel]
    · rw [if_neg hj]
      by_cases hin : 1 ≤ j ∧ j ≤ k
      · rw [if_pos hin, if_pos (by omega)]
      · rw [if_neg hin, if_neg (by omega)]

/-- **A header that was stored is read back.** -/
theorem holds_encode (hn : lh.n ≤ logsize) (hblock : ∀ i < lh.n, lh.block i < 2 ^ 32) :
    Holds lh (encode lh d) where
  n := by
    have hsmall : lh.n < 2 ^ 32 := by
      simp only [logsize] at hn
      omega
    have hzero : 0 < Fs.nindirect := by decide
    rw [encode, word_foldl hn hblock, if_neg (by omega), word_setWord hzero hsmall, if_pos rfl]
  block := by
    intro i hi
    rw [encode, word_foldl hn hblock, if_pos (by omega), Nat.add_sub_cancel]

theorem count_of_le (hj : j ≤ logsize) : count j = j := by
  refine if_pos ?_
  simp only [logsize] at hj
  omega

end Header

/-! ### What the disk stands for -/

/-- The blocks of the header are outside of the log area, and the log area has room for them. -/
structure Fits (l : Layout) (lh : Logheader) : Prop where
  small : lh.n ≤ logsize
  room : lh.n < l.size
  home : ∀ i < lh.n, l.Home (lh.block i)
  uint : ∀ i < lh.n, lh.block i < 2 ^ 32

/-- The log on the disk holds the blocks `lh` of `home`; the other blocks of `home` are in their
places. -/
structure Pending (l : Layout) (home : Disk) (lh : Logheader) (d : Disk) : Prop where
  header : Holds lh (d l.start)
  copy : ∀ i < lh.n, d (l.start + i + 1) = home (lh.block i)
  rest : ∀ b, l.Home b → b ∉ lh.blocks → d b = home b

/-- The disk stands for `home`: what is in the log replaces what is in its place. -/
def Logged (l : Layout) (home d : Disk) : Prop := ∃ lh, Fits l lh ∧ Pending l home lh d

/-- The log is empty, and the blocks of `home` are in their places. -/
structure Clean (l : Layout) (home d : Disk) : Prop where
  header : word (d l.start) 0 = 0
  rest : ∀ b, l.Home b → d b = home b

section Disks

variable {l : Layout} {home home' d : Disk} {lh : Logheader} {b i j : ℕ}

/-- Blocks of the log area are not outside of it. -/
theorem Layout.Home.ne {c : ℕ} (hb : l.Home b) (hc : l.start ≤ c) (hlt : c < l.start + l.size) :
    c ≠ b := by
  unfold Layout.Home at hb
  omega

theorem Clean.logged (hl : l.Sound) (h : Clean l home d) : Logged l home d := by
  have hnone : ∀ {p : ℕ → Prop}, ∀ i < (⟨0, fun _ => 0⟩ : Logheader).n, p i :=
    fun i hi => absurd hi (Nat.not_lt_zero i)
  exact ⟨⟨0, fun _ => 0⟩, ⟨Nat.zero_le _, hl.header, hnone, hnone⟩, ⟨h.header, hnone⟩, hnone,
    fun b hb _ => h.rest b hb⟩

/-- Only the blocks that the header counts matter. -/
theorem Fits.congr {lh' : Logheader} (h : Fits l lh) (hn : lh'.n = lh.n)
    (hblock : ∀ i < lh.n, lh'.block i = lh.block i) : Fits l lh' := by
  refine ⟨hn ▸ h.small, hn ▸ h.room, fun i hi => ?_, fun i hi => ?_⟩
  · rw [hblock i (by omega)]
    exact h.home i (by omega)
  · rw [hblock i (by omega)]
    exact h.uint i (by omega)

theorem Pending.congr {lh' : Logheader} (h : Pending l home lh d) (hn : lh'.n = lh.n)
    (hblock : ∀ i < lh.n, lh'.block i = lh.block i) : Pending l home lh' d := by
  have hblocks : lh'.blocks = lh.blocks := by
    rw [Logheader.blocks, Logheader.blocks, hn]
    exact List.map_congr_left fun i hi => hblock i (List.mem_range.1 hi)
  refine ⟨⟨by rw [hn, h.header.n], fun i hi => ?_⟩, fun i hi => ?_, fun b hb hmem => ?_⟩
  · rw [hblock i (by omega), h.header.block i (by omega)]
  · rw [hblock i (by omega), h.copy i (by omega)]
  · exact h.rest b hb (by rwa [hblocks] at hmem)

/-- Copying a block of the log to its place. -/
theorem Pending.install (hfits : Fits l lh) (h : Pending l home lh d) (hj : j < lh.n) :
    Pending l home lh (Function.update d (lh.block j) (home (lh.block j))) := by
  have hhome := hfits.home j hj
  have hroom := hfits.room
  refine ⟨?_, fun i hi => ?_, fun b hb hmem => ?_⟩
  · rw [update_of_ne (hhome.ne le_rfl (by omega))]
    exact h.header
  · rw [update_of_ne (hhome.ne (by omega) (by omega))]
    exact h.copy i hi
  · have hne : b ≠ lh.block j := by
      rintro rfl
      exact hmem (Logheader.mem_blocks.2 ⟨j, hj, rfl⟩)
    rw [update_of_ne hne]
    exact h.rest b hb hmem

/-- Once all blocks are in their places, the header may be erased. -/
theorem Pending.erase (hl : l.Sound) (h : Pending l home lh d)
    (hdone : ∀ i < lh.n, d (lh.block i) = home (lh.block i)) {x : Block} (hx : word x 0 = 0) :
    Clean l home (Function.update d l.start x) := by
  refine ⟨by rwa [update_self], fun b hb => ?_⟩
  have hheader := hl.header
  rw [update_of_ne (hb.ne le_rfl (by omega)).symm]
  by_cases hmem : b ∈ lh.blocks
  · obtain ⟨i, hi, rfl⟩ := Logheader.mem_blocks.1 hmem
    exact hdone i hi
  · exact h.rest b hb hmem

end Disks

/-- The view after the header was written. -/
def View.headed (v : View) (l : Layout) : View :=
  { v with
    disk := Function.update v.disk l.start (encode v.lh (v.content l.start))
    content := Function.update v.content l.start (encode v.lh (v.content l.start)) }

/-! ### The functions of the log -/

section Log

variable {l : Layout} {P : Finset ℕ} {s : State} {v : View} {C : Disk → Prop} {E : Fault → Prop}
  {home : Disk}

/-- `write_head` replaces the header on the disk. -/
theorem safe_writeHead (h : Sees P s v) (hidle : v.Idle) (hC : C v.disk)
    (hC' : C (Function.update v.disk l.start (encode v.lh (v.content l.start)))) :
    Safe C E (writeHead l) s fun _ s' => Sees P s' (v.headed l) := by
  refine (safe_bread h hC (congrFun hidle l.start)).bind fun _ s₁ h₁ => ?_
  refine (safe_store h₁ hC ?_ (d := encode v.lh (v.content l.start)) ?_).bind fun _ s₂ h₂ => ?_
  · simp
  · rw [h₁.lh, h₁.content]
    rfl
  have hC'' : C (((v.lock l.start).put l.start (encode v.lh (v.content l.start))).flush
      l.start).disk := by
    change C (Function.update v.disk l.start (Function.update v.content l.start _ l.start))
    rwa [update_self]
  refine (safe_bwrite h₂ hC ?_ hC'').bind fun _ s₃ h₃ => ?_
  · simp
  refine (safe_brelse h₃ hC'' ?_ (.inr ?_)).post fun _ s' h' => ?_
  · simp
  · simp
  · have hview : ((((v.lock l.start).put l.start (encode v.lh (v.content l.start))).flush
        l.start).unlock l.start) = v.headed l := by
      refine View.ext ?_ rfl ?_ rfl rfl
      · change Function.update v.disk l.start (Function.update v.content l.start _ l.start) = _
        rw [update_self, View.headed]
      · change Function.update (Function.update v.locked l.start true) l.start false = v.locked
        rw [update_idem, update_eq_self_iff]
        exact (congrFun hidle l.start).symm
    rwa [← hview]

/-- **`install_trans`**: the disk stands for the same blocks all the time, and at the end they are
in their places. -/
theorem safe_installTrans {recovering : Bool} {P : ℕ → Finset ℕ} (h : Sees (P 0) s v)
    (hidle : v.Idle) (hfits : Fits l v.lh) (hpend : Pending l home v.lh v.disk)
    (hP : ∀ j < v.lh.n, (P j).erase (v.lh.block j) = P (j + 1))
    (hlog : ∀ j < v.lh.n, l.start + j + 1 ∉ P j)
    (hdst : ∀ j < v.lh.n, if recovering then v.lh.block j ∉ P j else v.lh.block j ∈ P j) :
    Safe (Logged l home) E (installTrans l recovering) s fun _ s' => ∃ v', Sees (P v.lh.n) s' v' ∧
      v'.Idle ∧ v'.lh = v.lh ∧ v'.outstanding = v.outstanding ∧ Pending l home v.lh v'.disk ∧
      ∀ i < v.lh.n, v'.disk (v.lh.block i) = home (v.lh.block i) := by
  -- the invariant of the loop: the first `j` blocks are in their places
  refine safe_copyLoop (fun j v' => Pending l home v.lh v'.disk ∧
    ∀ i < j, v'.disk (v.lh.block i) = home (v.lh.block i)) h hidle ⟨hpend, nofun⟩
    (fun _ _ hR => ⟨v.lh, hfits, hR.1⟩) ?_
  rintro j v' s' hj h' hidle' hlh ⟨hpend', hdone⟩
  have hroom := hfits.room
  have hne : v.lh.block j ≠ l.start + j + 1 := ((hfits.home j hj).ne (by omega) (by omega)).symm
  have hsrc : v'.content (l.start + j + 1) = home (v.lh.block j) := by
    rw [h'.clean _ (hlog j hj) (congrFun hidle' _), hpend'.copy j hj]
  have hnext : Pending l home v.lh (Function.update v'.disk (v.lh.block j)
      (v'.content (l.start + j + 1))) := by
    rw [hsrc]
    exact hpend'.install hfits hj
  refine ⟨v.lh.block j, l.start + j + 1, ⟨hnext, fun i hi => ?_⟩, ?_⟩
  · change Function.update v'.disk (v.lh.block j) (v'.content (l.start + j + 1)) (v.lh.block i) = _
    rw [update_apply]
    split_ifs with heq
    · rw [hsrc, heq]
    · have hne' : i ≠ j := fun hij => heq (by rw [hij])
      exact hdone i (by omega)
  · rw [hlh, ← hP j hj]
    exact safe_installTrans_round h' hidle' hne (hlog j hj) (hdst j hj) ⟨v.lh, hfits, hpend'⟩
      ⟨v.lh, hfits, hnext⟩

/-- `write_log` fills the log area, which does not matter as long as the header is empty. -/
theorem safe_writeLog (h : Sees P s v) (hidle : v.Idle) (hl : l.Sound) (hfits : Fits l v.lh)
    (hclean : Clean l home v.disk) :
    Safe (Clean l home) E (writeLog l) s fun _ s' => ∃ v', Sees P s' v' ∧ v'.Idle ∧ v'.lh = v.lh ∧
      v'.outstanding = v.outstanding ∧ Clean l home v'.disk ∧
      (∀ b, l.Home b → v'.content b = v.content b) ∧
      ∀ i < v.lh.n, v'.disk (l.start + i + 1) = v.content (v.lh.block i) := by
  -- the invariant of the loop: the first `j` blocks are in the log
  refine safe_copyLoop (P := fun _ => P) (fun j v' => Clean l home v'.disk ∧
    (∀ b, l.Home b → v'.content b = v.content b) ∧
    ∀ i < j, v'.disk (l.start + i + 1) = v.content (v.lh.block i)) h hidle
    ⟨hclean, fun _ _ => rfl, nofun⟩ (fun _ _ hR => hR.1) ?_
  rintro j v' s' hj h' hidle' hlh ⟨hclean', hsame, hdone⟩
  have hroom := hfits.room
  have hheader := hl.header
  have hsrc : l.Home (v.lh.block j) := hfits.home j hj
  have hnext : Clean l home (Function.update v'.disk (l.start + j + 1)
      (v'.content (v.lh.block j))) := by
    refine ⟨?_, fun b hb => ?_⟩
    · rw [update_of_ne (by omega)]
      exact hclean'.header
    · rw [update_of_ne (hb.ne (by omega) (by omega)).symm]
      exact hclean'.rest b hb
  refine ⟨l.start + j + 1, v.lh.block j, ⟨hnext, fun b hb => ?_, fun i hi => ?_⟩, ?_⟩
  · change Function.update v'.content (l.start + j + 1) (v'.content (v.lh.block j)) b = _
    rw [update_of_ne (hb.ne (by omega) (by omega)).symm]
    exact hsame b hb
  · change Function.update v'.disk (l.start + j + 1) (v'.content (v.lh.block j))
      (l.start + i + 1) = _
    rcases eq_or_ne i j with rfl | hij
    · rw [update_self, hsame _ hsrc]
    · rw [update_of_ne (by omega)]
      exact hdone i (by omega)
  · rw [hlh]
    exact safe_writeLog_round h' hidle' (hsrc.ne (by omega) (by omega)) hclean' hnext

/-- `log.lh.n = 0`. -/
theorem safe_clear (h : Sees P s v) (hC : C v.disk) :
    Safe C E clear s fun _ s' => Sees P s' { v with lh := { v.lh with n := 0 } } :=
  CrashSafe.modify (h.on_disk hC) rfl (h.setLog (by rw [h.lh]) h.outstanding)

/-- `log.lh.n = 0; write_head();` after all blocks are in their places. -/
theorem safe_erase (h : Sees P s v) (hidle : v.Idle) (hl : l.Sound) {lh : Logheader}
    (hfits : Fits l lh) (hpend : Pending l home lh v.disk)
    (hdone : ∀ i < lh.n, v.disk (lh.block i) = home (lh.block i)) :
    Safe (Logged l home) E (do clear; writeHead l) s fun _ s' => ∃ v', Sees P s' v' ∧ v'.Idle ∧
      v'.lh.n = 0 ∧ v'.outstanding = v.outstanding ∧ Clean l home v'.disk := by
  have hlogged : Logged l home v.disk := ⟨lh, hfits, hpend⟩
  refine (safe_clear h hlogged).bind fun _ s₁ h₁ => ?_
  have hheader : Holds { v.lh with n := 0 } (encode { v.lh with n := 0 } (v.content l.start)) :=
    holds_encode (Nat.zero_le _) fun i hi => absurd hi (Nat.not_lt_zero i)
  have hclean := hpend.erase hl hdone hheader.n
  exact (safe_writeHead h₁ hidle hlogged (hclean.logged hl)).post fun _ s' h' =>
    ⟨_, h', hidle, rfl, rfl, hclean⟩

end Log

/-! ### Transactions -/

/-- In a transaction that has turned the blocks `home₀` into `home`: the disk still stands for
`home₀`, and the blocks that were changed are recorded and pinned. -/
structure Filled (l : Layout) (home₀ home : Disk) (s : State) (v : View) : Prop where
  sees : Sees v.lh.blocks.toFinset s v
  nodup : v.lh.blocks.Nodup
  idle : v.Idle
  fits : Fits l v.lh
  clean : Clean l home₀ v.disk
  content : ∀ b, l.Home b → v.content b = home b

/-- Between two transactions. -/
def Quiet (l : Layout) (home : Disk) (s : State) : Prop :=
  ∃ v, Filled l home home s v ∧ v.lh.n = 0 ∧ v.outstanding = 0

section Transactions

variable {l : Layout} {s : State} {v : View} {E : Fault → Prop} {home₀ home : Disk} {b : ℕ}

theorem Filled.logged (hl : l.Sound) (h : Filled l home₀ home s v) : Logged l home₀ s.disk :=
  h.sees.on_disk (h.clean.logged hl)

theorem Filled.setOutstanding {n n' : ℕ} (h : Filled l home₀ home s v) (hn : n = n') :
    Filled l home₀ home { s with outstanding := n } { v with outstanding := n' } :=
  ⟨h.sees.setLog h.sees.lh hn, h.nodup, h.idle, h.fits, h.clean, h.content⟩

theorem blocks_of_zero {lh : Logheader} (h : lh.n = 0) : lh.blocks = [] := by
  rw [Logheader.blocks, h, List.range_zero, List.map_nil]

theorem Quiet.of_sees (hl : l.Sound) (h : Sees ∅ s v) (hidle : v.Idle) (hn : v.lh.n = 0)
    (hout : v.outstanding = 0) (hclean : Clean l home v.disk) : Quiet l home s := by
  have hblocks := blocks_of_zero hn
  have hnone : ∀ {p : ℕ → Prop}, ∀ i < v.lh.n, p i := fun i hi => absurd hi (by omega)
  refine ⟨v, ⟨by rwa [hblocks], ?_, hidle, ⟨by omega, ?_, hnone, hnone⟩, hclean,
    fun b hb => ?_⟩, hn, hout⟩
  · rw [hblocks]
    exact List.nodup_nil
  · rw [hn]
    exact hl.header
  · rw [h.clean b (Finset.notMem_empty b) (congrFun hidle b)]
    exact hclean.rest b hb

/-- The blocks from number `j` on. -/
theorem drop_blocks {lh : Logheader} {j : ℕ} (hj : j < lh.n) :
    lh.blocks.drop j = lh.block j :: lh.blocks.drop (j + 1) := by
  have hlen : j < lh.blocks.length := by rwa [Logheader.length_blocks]
  rw [List.drop_eq_getElem_cons hlen]
  congr 1
  simp [Logheader.blocks]

/-- The blocks from number `j` on, without the first of them. -/
theorem erase_drop {lh : Logheader} (hnodup : lh.blocks.Nodup) {j : ℕ} (hj : j < lh.n) :
    ((lh.blocks.drop j).toFinset).erase (lh.block j) = (lh.blocks.drop (j + 1)).toFinset := by
  have hmem : lh.block j ∉ (lh.blocks.drop (j + 1)).toFinset := by
    have hsub := (List.drop_sublist j lh.blocks).nodup hnodup
    rw [drop_blocks hj, List.nodup_cons] at hsub
    rw [List.mem_toFinset]
    exact hsub.1
  rw [drop_blocks hj, List.toFinset_cons, Finset.erase_insert hmem]

/-- The second half of `commit()`: the blocks are copied to their places, and the header is
erased. -/
theorem safe_install_erase (hl : l.Sound) (h : Sees v.lh.blocks.toFinset s v)
    (hnodup : v.lh.blocks.Nodup) (hidle : v.Idle) (hfits : Fits l v.lh)
    (hpend : Pending l home v.lh v.disk) (hout : v.outstanding = 0) :
    Safe (Logged l home) E (do installTrans l false; clear; writeHead l) s fun _ s' =>
      Quiet l home s' := by
  have hinstall : Safe (Logged l home) E (installTrans l false) s fun _ s' => ∃ v',
      Sees (v.lh.blocks.drop v.lh.n).toFinset s' v' ∧ v'.Idle ∧ v'.lh = v.lh ∧
      v'.outstanding = v.outstanding ∧ Pending l home v.lh v'.disk ∧
      ∀ i < v.lh.n, v'.disk (v.lh.block i) = home (v.lh.block i) := by
    refine safe_installTrans (P := fun j => (v.lh.blocks.drop j).toFinset) ?_ hidle hfits hpend
      (fun j hj => erase_drop hnodup hj) (fun j hj hmem => ?_) (fun j hj => ?_)
    · rwa [List.drop_zero]
    · have hroom := hfits.room
      obtain ⟨i, hi, heq⟩ :=
        Logheader.mem_blocks.1 (List.mem_of_mem_drop (List.mem_toFinset.1 hmem))
      exact (hfits.home i hi).ne (c := l.start + j + 1) (by omega) (by omega) heq.symm
    · change v.lh.block j ∈ (v.lh.blocks.drop j).toFinset
      rw [drop_blocks hj, List.toFinset_cons]
      exact Finset.mem_insert_self _ _
  have hempty : (v.lh.blocks.drop v.lh.n).toFinset = ∅ := by
    rw [List.drop_of_length_le (by rw [Logheader.length_blocks]), List.toFinset_nil]
  refine hinstall.bind fun _ s₁ ⟨v₁, h₁, hidle₁, _, hout₁, hpend₁, hdone₁⟩ => ?_
  rw [hempty] at h₁
  refine (safe_erase h₁ hidle₁ hl hfits hpend₁ hdone₁).post
    fun _ s₂ ⟨v₂, h₂, hidle₂, hn₂, hout₂, hclean₂⟩ => ?_
  exact Quiet.of_sees hl h₂ hidle₂ hn₂ (by rw [hout₂, hout₁, hout]) hclean₂

/-- **`commit()`**: the disk stands for the old blocks or for the new ones at every moment, and for
the new ones at the end. -/
theorem safe_commit (hl : l.Sound) (h : Filled l home₀ home s v) (hout : v.outstanding = 0) :
    Safe (fun d => Logged l home₀ d ∨ Logged l home d) E (commit l) s
      fun _ s' => Quiet l home s' := by
  have hsees := h.sees
  have hstart : Logged l home₀ s.disk ∨ Logged l home s.disk := .inl (h.logged hl)
  refine CrashSafe.get_bind hstart ?_
  rw [hsees.lh]
  by_cases hn : 0 < v.lh.n
  · rw [if_pos hn]
    refine CrashSafe.bind ((safe_writeLog hsees h.idle hl h.fits h.clean).mono
      (fun d hd => .inl (hd.logged hl)) (fun _ => id) (fun _ _ => id))
      fun _ s₁ ⟨v₁, h₁, hidle₁, hlh₁, hout₁, hclean₁, hcontent₁, hcopy₁⟩ => ?_
    have hheader := hl.header
    -- writing the header is the moment at which the transaction takes effect
    have hpend : Pending l home v₁.lh
        (Function.update v₁.disk l.start (encode v₁.lh (v₁.content l.start))) := by
      rw [hlh₁]
      refine ⟨?_, fun i hi => ?_, fun b hb hmem => ?_⟩
      · rw [update_self]
        exact holds_encode h.fits.small h.fits.uint
      · rw [update_of_ne (by omega), hcopy₁ i hi]
        exact h.content _ (h.fits.home i hi)
      · rw [update_of_ne (hb.ne le_rfl (by omega)).symm]
        have hP : b ∉ v.lh.blocks.toFinset := by rwa [List.mem_toFinset]
        rw [← h₁.clean b hP (congrFun hidle₁ b), hcontent₁ b hb]
        exact h.content b hb
    have hfits₁ : Fits l v₁.lh := hlh₁ ▸ h.fits
    rw [← hlh₁] at h₁
    refine (safe_writeHead h₁ hidle₁ (.inl (hclean₁.logged hl)) (.inr ⟨v₁.lh, hfits₁, hpend⟩)).bind
      fun _ s₂ h₂ => ?_
    have hnodup₁ : v₁.lh.blocks.Nodup := by
      rw [hlh₁]
      exact h.nodup
    exact (safe_install_erase (v := v₁.headed l) hl h₂ hnodup₁ hidle₁ hfits₁
      hpend (hout₁.trans hout)).mono (fun d hd => .inr hd) (fun _ => id) (fun _ _ => id)
  · rw [if_neg hn]
    have hzero : v.lh.n = 0 := by omega
    have hsees' : Sees ∅ s v := by
      have := hsees
      rwa [blocks_of_zero hzero] at this
    refine CrashSafe.pure hstart ?_
    refine Quiet.of_sees hl hsees' h.idle hzero hout ⟨h.clean.header, fun b hb => ?_⟩
    rw [← hsees'.clean b (Finset.notMem_empty b) (congrFun h.idle b)]
    exact h.content b hb

/-- The number of blocks that `log_write` accepts. -/
def Layout.limit (l : Layout) : ℕ := min logsize (l.size - 1)

theorem search_eq_iff {lh : Logheader} : lh.search b 0 lh.n = lh.n ↔ b ∉ lh.blocks := by
  constructor
  · intro h hmem
    obtain ⟨j, hj, hb⟩ := Logheader.mem_blocks.1 hmem
    have hfound := (Logheader.search_found (i := 0) (k := lh.n) (Nat.zero_le j) (by omega) hb).1
    omega
  · intro h
    rw [Logheader.search_missing fun j _ hj hb => h (Logheader.mem_blocks.2 ⟨j, by omega, hb⟩),
      Nat.zero_add]

/-- `log_write` records and pins a block that is locked. -/
theorem safe_logWrite {C : Disk → Prop} (h : Sees v.lh.blocks.toFinset s v) (hC : C v.disk)
    (hb : v.locked b = true) (hout : 1 ≤ v.outstanding)
    (hE : l.limit ≤ v.lh.n → E .tooBigATransaction) :
    Safe C E (logWrite l b) s fun _ s' =>
      Sees (v.lh.record b).blocks.toFinset s' { v with lh := v.lh.record b } ∧
        v.lh.n < l.limit := by
  have hdisk := h.on_disk hC
  refine CrashSafe.get_bind hdisk ?_
  rw [h.lh, h.outstanding]
  by_cases hfull : logsize ≤ v.lh.n ∨ l.size - 1 ≤ v.lh.n
  · rw [if_pos hfull]
    refine CrashSafe.fail hdisk (hE ?_)
    unfold Layout.limit
    omega
  have hlimit : v.lh.n < l.limit := by
    unfold Layout.limit
    omega
  rw [if_neg hfull, if_neg (by omega : ¬ v.outstanding < 1)]
  have hrecord : ∀ {Q : Finset ℕ} {s₁ : State}, Sees Q s₁ v →
      Sees Q { s₁ with lh := s₁.lh.record b } { v with lh := v.lh.record b } :=
    fun h₁ => h₁.setLog (by rw [h₁.lh]) h₁.outstanding
  by_cases hmem : b ∈ v.lh.blocks
  · rw [if_neg (fun heq => search_eq_iff.1 heq hmem)]
    refine CrashSafe.modify hdisk rfl ⟨?_, hlimit⟩
    have hblocks : (v.lh.record b).blocks = v.lh.blocks := by
      rw [Logheader.blocks_record, if_pos hmem]
    rw [hblocks]
    exact hrecord h
  · rw [if_pos (search_eq_iff.2 hmem)]
    have hP : b ∉ v.lh.blocks.toFinset := by rwa [List.mem_toFinset]
    refine (safe_bpin h hC hb hP).bind fun _ s₁ h₁ => ?_
    refine CrashSafe.modify (by rwa [h₁.disk]) rfl ⟨?_, hlimit⟩
    have hblocks : (v.lh.record b).blocks.toFinset = insert b v.lh.blocks.toFinset := by
      rw [Logheader.blocks_record, if_neg hmem]
      ext c
      simp only [List.mem_toFinset, List.mem_append, List.mem_singleton, Finset.mem_insert, or_comm]
    rw [hblocks]
    exact hrecord h₁

theorem nodup_record {lh : Logheader} (h : lh.blocks.Nodup) : (lh.record b).blocks.Nodup := by
  rw [Logheader.blocks_record]
  split_ifs with hmem
  · exact h
  · rw [List.nodup_append]
    refine ⟨h, List.nodup_singleton b, fun x hx y hy heq => hmem ?_⟩
    rw [List.mem_singleton.1 hy] at heq
    rwa [← heq]

theorem Fits.record {lh : Logheader} (h : Fits l lh) (hlimit : lh.n < l.limit) (hb : l.Home b)
    (huint : b < 2 ^ 32) : Fits l (lh.record b) := by
  unfold Layout.limit at hlimit
  have hn : (lh.record b).n ≤ lh.n + 1 := by
    rw [Logheader.record_n]
    split_ifs <;> omega
  have hblock : ∀ i < (lh.record b).n, l.Home ((lh.record b).block i) ∧
      (lh.record b).block i < 2 ^ 32 := by
    intro i hi
    have hmem : (lh.record b).block i ∈ (lh.record b).blocks := Logheader.mem_blocks.2 ⟨i, hi, rfl⟩
    rcases Logheader.mem_blocks_record.1 hmem with heq | hold
    · rw [heq]
      exact ⟨hb, huint⟩
    · obtain ⟨j, hj, heq⟩ := Logheader.mem_blocks.1 hold
      rw [← heq]
      exact ⟨h.home j hj, h.uint j hj⟩
  exact ⟨by omega, by omega, fun i hi => (hblock i hi).1, fun i hi => (hblock i hi).2⟩

/-- One update changes the block in the cache and records it. -/
theorem safe_update {p : ℕ × (Block → Block)} (hl : l.Sound) (h : Filled l home₀ home s v)
    (hout : 1 ≤ v.outstanding) (hp : l.Home p.1) (huint : p.1 < 2 ^ 32)
    (hE : l.limit ≤ v.lh.n → E .tooBigATransaction) :
    Safe (Logged l home₀) E (update l p) s fun _ s' => ∃ v',
      Filled l home₀ (Function.update home p.1 (p.2 (home p.1))) s' v' ∧
      v'.outstanding = v.outstanding ∧ v'.lh.n ≤ v.lh.n + 1 := by
  have hC : Logged l home₀ v.disk := h.clean.logged hl
  refine (safe_bread h.sees hC (congrFun h.idle p.1)).bind fun _ s₁ h₁ => ?_
  refine (safe_store h₁ hC ?_ (d := p.2 (home p.1)) ?_).bind fun _ s₂ h₂ => ?_
  · simp
  · rw [h₁.content]
    change p.2 (v.content p.1) = _
    rw [h.content p.1 hp]
  refine (safe_logWrite (v := (v.lock p.1).put p.1 (p.2 (home p.1))) h₂ hC ?_ hout hE).bind
    fun _ s₃ ⟨h₃, hlimit⟩ => ?_
  · simp
  have hmem : p.1 ∈ (v.lh.record p.1).blocks.toFinset :=
    List.mem_toFinset.2 (Logheader.mem_blocks_record.2 (.inl rfl))
  refine (safe_brelse h₃ hC ?_ (.inl hmem)).post fun _ s₄ h₄ => ?_
  · simp
  refine ⟨View.unlock { (v.lock p.1).put p.1 (p.2 (home p.1)) with lh := v.lh.record p.1 } p.1,
    ⟨h₄, nodup_record h.nodup, ?_, h.fits.record hlimit hp huint, h.clean, fun c hc => ?_⟩, rfl, ?_⟩
  · change Function.update (Function.update v.locked p.1 true) p.1 false = _
    rw [update_idem, h.idle]
    exact update_eq_self p.1 (fun _ => false)
  · change Function.update v.content p.1 (p.2 (home p.1)) c =
      Function.update home p.1 (p.2 (home p.1)) c
    rw [update_apply, update_apply]
    split_ifs
    · rfl
    · exact h.content c hc
  · change (v.lh.record p.1).n ≤ v.lh.n + 1
    rw [Logheader.record_n]
    split_ifs <;> omega

theorem safe_updates {t : Transaction} (hl : l.Sound) (h : Filled l home₀ home s v)
    (hout : 1 ≤ v.outstanding) (ht : Within l t)
    (hE : l.limit < v.lh.n + t.length → E .tooBigATransaction) :
    Safe (Logged l home₀) E (updates l t) s fun _ s' => ∃ v',
      Filled l home₀ (apply t home) s' v' ∧ v'.outstanding = v.outstanding := by
  induction t generalizing s v home with
  | nil =>
    exact CrashSafe.pure (h.logged hl) ⟨v, h, rfl⟩
  | cons p t ih =>
    have hp := ht p List.mem_cons_self
    rw [List.length_cons] at hE
    refine (safe_update hl h hout hp.1 hp.2 fun hfull => hE (by omega)).bind
      fun _ s₁ ⟨v₁, h₁, hout₁, hn₁⟩ => ?_
    refine (ih h₁ (by omega) (fun q hq => ht q (List.mem_cons_of_mem p hq)) fun hfull =>
      hE (by omega)).post fun _ s₂ ⟨v₂, h₂, hout₂⟩ => ?_
    exact ⟨v₂, h₂, hout₂.trans hout₁⟩

/-- **A transaction**: the disk stands for the blocks before or after it at every moment.  It stops
the kernel only if it has more updates than the log has room for. -/
theorem safe_transaction {t : Transaction} (hl : l.Sound) (h : Quiet l home s) (ht : Within l t)
    (hE : l.limit < t.length → E .tooBigATransaction) :
    Safe (fun d => Logged l home d ∨ Logged l (apply t home) d) E (transaction l t) s
      fun _ s' => Quiet l (apply t home) s' := by
  obtain ⟨v, hfill, hn, hout⟩ := h
  have hC := hfill.logged hl
  have hleft : ∀ d, Logged l home d → Logged l home d ∨ Logged l (apply t home) d := fun _ => .inl
  have hbegin : Safe (Logged l home) E beginOp s fun _ s' => ∃ v', Filled l home home s' v' ∧
      v'.outstanding = 1 ∧ v'.lh.n = 0 := by
    refine CrashSafe.get_bind hC ?_
    have hroom : ¬ s.lh.n + (s.outstanding + 1) * maxopblocks > logsize := by
      rw [hfill.sees.lh, hfill.sees.outstanding, hn, hout]
      decide
    rw [if_neg hroom]
    refine CrashSafe.modify hC rfl ⟨{ v with outstanding := v.outstanding + 1 }, ?_, ?_, hn⟩
    · exact hfill.setOutstanding (by rw [hfill.sees.outstanding])
    · change v.outstanding + 1 = 1
      rw [hout]
  refine (hbegin.mono hleft (fun _ => id) (fun _ _ => id)).bind fun _ s₁ ⟨v₁, h₁, hout₁, hn₁⟩ => ?_
  refine ((safe_updates hl h₁ (by omega) ht fun hfull => hE (by omega)).mono hleft (fun _ => id)
    (fun _ _ => id)).bind fun _ s₂ ⟨v₂, h₂, hout₂⟩ => ?_
  refine CrashSafe.bind (R := fun _ s' => ∃ v', Filled l home (apply t home) s' v' ∧
    v'.outstanding = 0)
    (CrashSafe.modify (.inl (h₂.logged hl)) rfl ⟨{ v₂ with outstanding := 0 }, ?_, rfl⟩) ?_
  · refine h₂.setOutstanding ?_
    rw [h₂.sees.outstanding]
    omega
  · rintro _ s₃ ⟨v₃, h₃, hout₃⟩
    refine CrashSafe.get_bind (.inl (h₃.logged hl)) ?_
    rw [h₃.sees.outstanding, if_pos hout₃]
    exact safe_commit hl h₃ hout₃

end Transactions

/-! ### Recovery -/

section Recovery

variable {l : Layout} {s : State} {home d d' : Disk} {others : ℕ → ℕ → Bool} {E : Fault → Prop}

theorem sees_boot : Sees ∅ (boot others d) ⟨d, d, fun _ => false, ⟨0, fun _ => 0⟩, 0⟩ where
  disk := rfl
  content := fun _ => rfl
  locked := rfl
  lh := rfl
  outstanding := rfl
  refcnt := fun _ => rfl
  cached := fun _ h => absurd rfl h
  clean := fun _ _ _ => rfl

/-- `read_head` reads the header. -/
theorem safe_readHead {lh : Logheader} (hlogged : Logged l home d) (hsmall : lh.n ≤ logsize)
    (hheader : Holds lh (d l.start)) :
    Safe (Logged l home) E (readHead l) (boot others d) fun _ s' => ∃ lh', lh'.n = lh.n ∧
      (∀ i < lh.n, lh'.block i = lh.block i) ∧ Sees ∅ s' ⟨d, d, fun _ => false, lh', 0⟩ := by
  refine (safe_bread sees_boot hlogged rfl).bind fun _ s₁ h₁ => ?_
  have hcontent : s₁.content l.start = d l.start := h₁.content l.start
  have hcount : count (word (s₁.content l.start) 0) = lh.n := by
    rw [hcontent, hheader.n, count_of_le hsmall]
  have hdisk : Logged l home s₁.disk := h₁.on_disk hlogged
  refine CrashSafe.get_bind hdisk ?_
  rw [if_neg (by omega)]
  let lh' : Logheader :=
    ⟨lh.n, fun i => if i < lh.n then word (d l.start) (i + 1) else s₁.lh.block i⟩
  have hblock : ∀ i < lh.n, lh'.block i = lh.block i := by
    intro i hi
    rw [← hheader.block i hi]
    exact if_pos hi
  refine CrashSafe.bind (R := fun _ s' => Sees ∅ s'
    ⟨d, d, Function.update (fun _ => false) l.start true, lh', 0⟩)
    (CrashSafe.modify hdisk rfl ?_) ?_
  · refine h₁.setLog ?_ h₁.outstanding
    rw [hcount, hcontent]
  · intro _ s₂ h₂
    refine (safe_brelse h₂ hlogged (by simp) (.inr rfl)).post fun _ s₃ h₃ => ?_
    refine ⟨lh', rfl, hblock, ?_⟩
    have hview : View.unlock ⟨d, d, Function.update (fun _ => false) l.start true, lh', 0⟩ l.start =
        ⟨d, d, fun _ => false, lh', 0⟩ := by
      refine View.ext rfl rfl ?_ rfl rfl
      change Function.update (Function.update (fun _ => false) l.start true) l.start false = _
      rw [update_idem]
      exact update_eq_self l.start (fun _ => false)
    rwa [← hview]

/-- **`recover_from_log`** returns; the disk stands for the same blocks all the time, and at the end
they are in their places. -/
theorem safe_recoverFromLog (hl : l.Sound) (h : Logged l home d) :
    Safe (Logged l home) E (recoverFromLog l) (boot others d) fun _ s' => Quiet l home s' := by
  obtain ⟨lh, hfits, hpend⟩ := h
  refine (safe_readHead ⟨lh, hfits, hpend⟩ hfits.small hpend.header).bind
    fun _ s₁ ⟨lh₁, hn, hblock, h₁⟩ => ?_
  have hfits₁ := hfits.congr hn hblock
  refine CrashSafe.bind (safe_installTrans (P := fun _ => ∅) h₁ rfl hfits₁ (hpend.congr hn hblock)
    (fun j _ => Finset.erase_empty _) (fun j _ => Finset.notMem_empty _)
    (fun j _ => Finset.notMem_empty _)) fun _ s₂ ⟨v₂, h₂, hidle₂, _, hout₂, hpend₂, hdone₂⟩ => ?_
  refine (safe_erase h₂ hidle₂ hl hfits₁ hpend₂ hdone₂).post
    fun _ s₃ ⟨v₃, h₃, hidle₃, hn₃, hout₃, hclean₃⟩ => ?_
  exact Quiet.of_sees hl h₃ hidle₃ hn₃ (hout₃.trans hout₂) hclean₃

theorem Quiet.clean (h : Quiet l home s) : Clean l home s.disk := by
  obtain ⟨v, hfill, -, -⟩ := h
  rw [hfill.sees.disk]
  exact hfill.clean

/-- Recoveries that are cut off do not change what the disk stands for. -/
theorem Interrupted.logged (hl : l.Sound) (h : Interrupted l d d') (hd : Logged l home d) :
    Logged l home d' := by
  induction h with
  | none => exact hd
  | again _ hcut ih =>
    exact (safe_recoverFromLog (E := fun _ => False) hl ih).crash _ hcut

/-- What the disk stands for when a run of transactions is cut off. -/
theorem CrashesAfter.logged {ts : List Transaction} {k : ℕ} (hl : l.Sound)
    (h : CrashesAfter l ts s k d) (hs : Quiet l home s) (hts : ∀ t ∈ ts, Within l t) :
    ∃ m, k ≤ m ∧ m ≤ ts.length ∧ Logged l (applyAll (ts.take m) home) d := by
  induction h generalizing home with
  | idle => exact ⟨0, le_rfl, le_rfl, hs.clean.logged hl⟩
  | @now t ts s w hcut =>
    have ht := hts t List.mem_cons_self
    have hsafe := safe_transaction (E := fun _ => True) hl hs ht fun _ => trivial
    rcases hsafe.crash w hcut with hold | hnew
    · exact ⟨0, le_rfl, Nat.zero_le _, hold⟩
    · refine ⟨1, Nat.zero_le 1, by simp, ?_⟩
      rw [List.take_succ_cons, List.take_zero]
      exact hnew
  | @later t ts s s' u k d hret _ ih =>
    have ht := hts t List.mem_cons_self
    have hsafe := safe_transaction (E := fun _ => True) hl hs ht fun _ => trivial
    obtain ⟨w, hrun⟩ := hret.runs
    obtain ⟨m, hkm, hm, hlogged⟩ := ih (hsafe.result u w s' hrun).2 fun t' ht' =>
      hts t' (List.mem_cons_of_mem t ht')
    refine ⟨m + 1, by omega, by rw [List.length_cons]; omega, ?_⟩
    rw [List.take_succ_cons]
    exact hlogged

/-- **Transactions that fit into the log are carried out**: they return, and the disk holds their
result. -/
theorem transactions_return {ts : List Transaction} (hl : l.Sound) (hs : Quiet l home s)
    (hts : ∀ t ∈ ts, Within l t ∧ t.length ≤ l.limit) :
    ∃ s', Returns (transactions l ts) s () s' ∧ Quiet l (applyAll ts home) s' := by
  induction ts generalizing s home with
  | nil => exact ⟨s, returns_pure.2 ⟨rfl, rfl⟩, hs⟩
  | cons t ts ih =>
    obtain ⟨ht, hlen⟩ := hts t List.mem_cons_self
    have hsafe := safe_transaction (E := fun _ => False) hl hs ht fun hfull => by omega
    obtain ⟨_, s₁, hret, hquiet⟩ := hsafe.returns fun _ => id
    obtain ⟨s₂, hret₂, hquiet₂⟩ := ih hquiet fun t' ht' => hts t' (List.mem_cons_of_mem t ht')
    exact ⟨s₂, returns_bind.2 ⟨(), s₁, hret, hret₂⟩, hquiet₂⟩

/-- **Transactions are crash-atomic.**  The machine is started with an empty log, transactions run,
and it stops in one of them, after `k` were committed; then any number of recoveries is cut off.
The next recovery returns, leaves an empty log, and the blocks outside of the log area are those
after the first `m` transactions, with `m` at least `k`. -/
theorem crash_atomic {ts : List Transaction} {k : ℕ} {d₀ : Disk} (hl : l.Sound)
    (h₀ : word (d₀ l.start) 0 = 0) (hstart : Returns (recoverFromLog l) (boot others d₀) () s)
    (hts : ∀ t ∈ ts, Within l t) (hcrash : CrashesAfter l ts s k d) (hint : Interrupted l d d')
    (others' : ℕ → ℕ → Bool) :
    ∃ s', Returns (recoverFromLog l) (boot others' d') () s' ∧ word (s'.disk l.start) 0 = 0 ∧
      ∃ m, k ≤ m ∧ m ≤ ts.length ∧ ∀ b, l.Home b → s'.disk b = applyAll (ts.take m) d₀ b := by
  have hclean : Clean l d₀ d₀ := ⟨h₀, fun _ _ => rfl⟩
  have hquiet : Quiet l d₀ s := by
    obtain ⟨w, hrun⟩ := hstart.runs
    exact ((safe_recoverFromLog (E := fun _ => False) hl (hclean.logged hl)).result _ w s hrun).2
  obtain ⟨m, hkm, hm, hlogged⟩ := hcrash.logged hl hquiet hts
  have hsafe : Safe (Logged l (applyAll (ts.take m) d₀)) (fun _ => False) (recoverFromLog l)
      (boot others' d') fun _ s' => Quiet l (applyAll (ts.take m) d₀) s' :=
    safe_recoverFromLog hl (hint.logged hl hlogged)
  obtain ⟨_, s', hret, hquiet'⟩ := hsafe.returns fun _ => id
  exact ⟨s', hret, hquiet'.clean.header, m, hkm, hm, hquiet'.clean.rest⟩

/-- A blank disk with a log area of three blocks, a transaction that fills block 7, and a crash
after it was committed. -/
theorem crash_atomic_one : ∃ s d,
    Returns (recoverFromLog ⟨2, 3⟩) (boot (fun _ _ => false) fun _ => .zero) () s ∧
    CrashesAfter ⟨2, 3⟩ [[(7, fun _ _ => 255)]] s 1 d ∧
    ∃ s', Returns (recoverFromLog ⟨2, 3⟩) (boot (fun _ _ => true) d) () s' ∧
      word (s'.disk 2) 0 = 0 ∧
      ∃ m, 1 ≤ m ∧ m ≤ 1 ∧ ∀ b, Layout.Home ⟨2, 3⟩ b → s'.disk b =
        applyAll ([[(7, fun _ _ => 255)]].take m) (fun _ => .zero) b := by
  have hl : Layout.Sound ⟨2, 3⟩ := ⟨by decide, by decide⟩
  have hwithin : ∀ t ∈ ([[(7, fun _ _ => 255)]] : List Transaction), Within ⟨2, 3⟩ t ∧
      t.length ≤ Layout.limit ⟨2, 3⟩ := by
    intro t ht
    obtain rfl := List.mem_singleton.1 ht
    refine ⟨fun p hp => ?_, by decide⟩
    obtain rfl := List.mem_singleton.1 hp
    exact ⟨.inr (by decide), by decide⟩
  have hheader : word (Bytes.zero : Block) 0 = 0 := Fs.word_zero
  have hclean : Clean ⟨2, 3⟩ (fun _ => .zero) fun _ => .zero := ⟨hheader, fun _ _ => rfl⟩
  have hsafe : Safe (Logged ⟨2, 3⟩ fun _ => .zero) (fun _ => False) (recoverFromLog ⟨2, 3⟩)
      (boot (fun _ _ => false) fun _ => .zero) fun _ s' => Quiet ⟨2, 3⟩ (fun _ => .zero) s' :=
    safe_recoverFromLog hl (hclean.logged hl)
  obtain ⟨_, s, hret, hquiet⟩ := hsafe.returns fun _ => id
  obtain ⟨s₁, hret₁, -⟩ := transactions_return hl hquiet hwithin
  obtain ⟨_, s₂, htrans, hnil⟩ := returns_bind.1 hret₁
  have hcrash : CrashesAfter ⟨2, 3⟩ [[(7, fun _ _ => 255)]] s 1 s₂.disk := .later htrans .idle
  exact ⟨s, s₂.disk, hret, hcrash,
    crash_atomic hl hheader hret (fun t ht => (hwithin t ht).1) hcrash .none fun _ _ => true⟩

end Recovery

end RaidSystem.LogRecovery
