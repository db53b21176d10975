/-
**`fork` and `exec` when they fail: `kernel/proc.c`, `kernel/exec.c`.**

Both calls build a page table, and may run out of pages at any point of it; `exec` may also find a
fault in the file or in the arguments.  They then take apart what they have built.  The record of a
call says whether `kalloc` has returned `0` in it and whether it went to the label `bad`.  A call
that has such a record returns `-1`, leaves the same pages free, and leaves the process that called
it as it was.

The file is given by what `readi` copies for each offset and length.  Writing `ustack[argc]` for
exactly `MAXARG` arguments stops the model, since it lies outside the array; `sys_exec` never passes
that many.

* `fork`, `exec` — the calls;
* `execLoad_image`, `execPush_image` — `exec` has new memory in the end, or everything is as it was;
* `allocproc_child` — the same for the slot of a child;
* `FailsWith` — what a call guarantees if it fails, with a rule for sequences;
* `failed_calls_give_back` — **failed calls give everything back**.
-/

import RaidSystem.UserMemory

set_option autoImplicit false

namespace RaidSystem.Processes

open Prog Function
open PageTree (InTree)
open PageTables (link first lookup)
open Vm (Event UserByte Owners Heap Idle Changes Image pages)

/-! ### Processes -/

/-- `enum procstate`. -/
inductive ProcState
  | unused
  | used
  | sleeping
  | runnable
  | running
  | zombie
deriving DecidableEq

/-- `struct proc`, without the kernel stack and the saved context. -/
structure Proc where
  state : ProcState
  chan : ℕ
  killed : ℕ
  xstate : ℤ
  pid : ℕ
  parent : Option ℕ
  sz : ℕ
  pagetable : ℕ
  trapframe : ℕ
  ofile : ℕ → Option ℕ
  cwd : ℕ
  name : List UserByte

/-- Physical memory, the process table, and the references to open files and inodes. -/
structure State where
  vm : PageTables.State
  proc : ℕ → Proc
  nextpid : ℕ
  fileRef : ℕ → ℕ
  inodeRef : ℕ → ℕ

abbrev Kernel := Prog State Event Vm.Fault

/-- `NPROC`. -/
def nproc : ℕ := 64

/-- `NOFILE`. -/
def nofile : ℕ := 16

/-- `MAXARG`. -/
def maxarg : ℕ := 32

/-- A function of `kernel/vm.c` or `kernel/kalloc.c`. -/
def onMemory {α : Type} (x : Vm.Kernel α) : Kernel α :=
  within State.vm (fun s vm => { s with vm := vm }) (fun e => e) x

def State.set (s : State) (i : ℕ) (f : Proc → Proc) : State :=
  { s with proc := update s.proc i (f (s.proc i)) }

def setProc (i : ℕ) (f : Proc → Proc) : Kernel Unit := modify fun s => s.set i f

def allocpid : Kernel ℕ := do
  let s ← get
  modify fun s => { s with nextpid := s.nextpid + 1 }
  pure s.nextpid

/-- What `freeproc` gives back. -/
def freeMemory (kend trapframe pagetable sz : ℕ) : Vm.Kernel Unit := do
  guarded (trapframe ≠ 0) (Vm.kfree kend trapframe)
  guarded (pagetable ≠ 0) (Vm.procFreepagetable kend pagetable sz)

def freeproc (kend i : ℕ) : Kernel Unit := do
  let s ← get
  onMemory (freeMemory kend (s.proc i).trapframe (s.proc i).pagetable (s.proc i).sz)
  setProc i fun q => { q with
    trapframe := 0, pagetable := 0, sz := 0, pid := 0, parent := none, name := [], chan := 0,
      killed := 0,
    xstate := 0, state := .unused }

/-- `allocproc` from the label `found` on, for the free slot `i`. -/
def found (kend trampoline i : ℕ) : Kernel (Option ℕ) := do
  let pid ← allocpid
  setProc i fun q => { q with pid := pid, state := .used }
  let trapframe ← onMemory Vm.kalloc
  setProc i fun q => { q with trapframe := trapframe }
  if trapframe = 0 then do
    freeproc kend i
    pure none
  else do
    let pagetable ← onMemory (Vm.procPagetable kend trampoline trapframe)
    setProc i fun q => { q with pagetable := pagetable }
    if pagetable = 0 then do
      freeproc kend i
      pure none
    else pure (some i)

def allocproc (kend trampoline : ℕ) : Kernel (Option ℕ) := do
  let s ← get
  match (List.range nproc).find? fun i => (s.proc i).state = .unused with
  | none => pure none
  | some i => found kend trampoline i

/-! ### `fork` -/

/-- `*dst = *src` for trapframes: 36 words. -/
def copyTrapframe (src dst : ℕ) : Vm.Kernel Unit := modify fun s =>
  { s with mem := update s.mem dst fun j => if j.val < 36 then s.mem src j else s.mem dst j }

def filedup (f : ℕ) : Kernel Unit := do
  let s ← get
  if s.fileRef f < 1 then fail .filedup
  else modify fun s => { s with fileRef := update s.fileRef f (s.fileRef f + 1) }

def idup (ip : ℕ) : Kernel Unit :=
  modify fun s => { s with inodeRef := update s.inodeRef ip (s.inodeRef ip + 1) }

/-- One round of the loop over the open files. -/
def dupOfile (p np i : ℕ) : Kernel Unit := do
  let s ← get
  match (s.proc p).ofile i with
  | none => pure ()
  | some f => do
    filedup f
    setProc np fun q => { q with ofile := update q.ofile i (some f) }

/-- What `fork` does once the memory is copied. -/
def forkFinish (p np : ℕ) : Kernel ℤ := do
  let s ← get
  setProc np fun q => { q with sz := (s.proc p).sz }
  onMemory (copyTrapframe (s.proc p).trapframe (s.proc np).trapframe)
  onMemory (Vm.store (s.proc np).trapframe (Vm.index 14) 0)
  forRange (dupOfile p np) 0 nofile
  idup (s.proc p).cwd
  setProc np fun q => { q with
    cwd := (s.proc p).cwd, name := (s.proc p).name.take 15, parent := some p, state := .runnable }
  pure (s.proc np).pid

/-- `fork()`, called by process `p`. -/
def fork (kend trampoline p : ℕ) : Kernel ℤ := do
  match ← allocproc kend trampoline with
  | none => pure (-1)
  | some np => do
    let s ← get
    let r ← onMemory (Vm.uvmcopy kend (s.proc p).pagetable (s.proc np).pagetable (s.proc p).sz)
    if r < 0 then do
      freeproc kend np
      pure (-1)
    else forkFinish p np

/-! ### `exec` -/

/-- The file that `exec` loads: what `readi` copies when asked for `n` bytes at an offset. -/
structure Inode where
  read : ℕ → ℕ → List UserByte
  read_le : ∀ off n, (read off n).length ≤ n

/-- A number of `n` bytes at an offset, little-endian. -/
def le (bytes : List UserByte) (off n : ℕ) : ℕ :=
  ((bytes.drop off).take n).foldr (fun b word => b.toNat + 256 * word) 0

/-- `flags2perm(flags)`. -/
def flags2perm (flags : ℕ) : ℕ :=
  (if flags &&& 1 ≠ 0 then 8 else 0) ||| if flags &&& 2 ≠ 0 then 4 else 0

/-- The loop of `loadseg`, with a bound on the number of rounds. -/
def loadsegLoop (pagetable va : ℕ) (ip : Inode) (offset sz : ℕ) : ℕ → ℕ → Vm.Kernel ℤ
  | 0, _ => fail .looping
  | k + 1, i =>
    if i < sz then do
      let pa ← Vm.walkaddr pagetable (va + i)
      if pa = 0 then fail .loadseg
      else do
        let n := if sz - i < pgsize then sz - i else pgsize
        let bytes := ip.read ((offset + i) % 2 ^ 32) n
        Vm.moveIn pa 0 bytes
        if bytes.length ≠ n then pure (-1)
        else loadsegLoop pagetable va ip offset sz k (i + pgsize)
    else pure 0

def loadseg (pagetable va : ℕ) (ip : Inode) (offset sz : ℕ) : Vm.Kernel ℤ :=
  loadsegLoop pagetable va ip offset sz (sz + 1) 0

/-- The loop over the program headers; the answer says whether all went well, with the size so
far. -/
def loadSegments (kend pagetable : ℕ) (ip : Inode) : ℕ → ℕ → ℕ → Vm.Kernel (Bool × ℕ)
  | 0, _, sz => pure (true, sz)
  | k + 1, off, sz =>
    let ph := ip.read off 56
    let type := le ph 0 4
    let flags := le ph 4 4
    let offset := le ph 8 8
    let vaddr := le ph 16 8
    let filesz := le ph 32 8
    let memsz := le ph 40 8
    if ph.length ≠ 56 then pure (false, sz)
    else if type ≠ 1 then loadSegments kend pagetable ip k ((off + 56) % 2 ^ 32) sz
    else if memsz < filesz then pure (false, sz)
    else if (vaddr + memsz) % 2 ^ 64 < vaddr then pure (false, sz)
    else if vaddr % pgsize ≠ 0 then pure (false, sz)
    else do
      let sz1 ← Vm.uvmalloc kend pagetable sz ((vaddr + memsz) % 2 ^ 64) (flags2perm flags)
      if sz1 = 0 then pure (false, sz)
      else do
        let r ← loadseg pagetable vaddr ip (offset % 2 ^ 32) (filesz % 2 ^ 32)
        if r < 0 then pure (false, sz1)
        else loadSegments kend pagetable ip k ((off + 56) % 2 ^ 32) sz1

/-- `sp -= n; sp -= sp % 16`. -/
def push (sp n : ℕ) : ℕ :=
  let sp := (sp + 2 ^ 64 - n % 2 ^ 64) % 2 ^ 64
  sp - sp % 16

/-- The loop over the arguments: the stack pointer, and the addresses of the strings. -/
def pushArgs (pagetable stackbase : ℕ) :
    List (List UserByte) → ℕ → List ℕ → Vm.Kernel (Option (ℕ × List ℕ))
  | [], sp, ustack => pure (some (sp, ustack))
  | arg :: argv, sp, ustack =>
    if maxarg ≤ ustack.length then pure none
    else
      let sp := push sp (arg.length + 1)
      if sp < stackbase then pure none
      else do
        let r ← Vm.copyout pagetable sp (arg ++ [0])
        if r < 0 then pure none
        else pushArgs pagetable stackbase argv sp (ustack ++ [sp])

/-- The new memory, the stack pointer, and the addresses of the arguments. -/
structure Loaded where
  pagetable : ℕ
  sz : ℕ
  sp : ℕ
  ustack : List ℕ

/-- The label `bad`. -/
def bad {α : Type} (kend pagetable sz : ℕ) : Vm.Kernel (Option α) := do
  emit .bad
  guarded (pagetable ≠ 0) (Vm.procFreepagetable kend pagetable sz)
  pure none

/-- `exec` up to the arguments; `trapframe` is `p->trapframe`. -/
def execLoad (kend trampoline trapframe : ℕ) (ip : Inode) (argv : List (List UserByte)) :
    Vm.Kernel (Option Loaded) :=
  let elf := ip.read 0 64
  if elf.length ≠ 64 then bad kend 0 0
  else if le elf 0 4 ≠ 0x464C457F then bad kend 0 0
  else do
    let pagetable ← Vm.procPagetable kend trampoline trapframe
    if pagetable = 0 then bad kend 0 0
    else do
      match ← loadSegments kend pagetable ip (le elf 56 2) (le elf 32 8 % 2 ^ 32) 0 with
      | (false, sz) => bad kend pagetable sz
      | (true, sz) => do
        let sz1 ← Vm.uvmalloc kend pagetable (Vm.pgroundup sz) (Vm.pgroundup sz + 2 * pgsize) 4
        if sz1 = 0 then bad kend pagetable (Vm.pgroundup sz)
        else do
          Vm.uvmclear pagetable (sz1 - 2 * pgsize)
          match ← pushArgs pagetable (sz1 - pgsize) argv sz1 [] with
          | none => bad kend pagetable sz1
          | some (sp, ustack) => pure (some ⟨pagetable, sz1, sp, ustack⟩)

/-- The bytes of a word. -/
def wordBytes (w : ℕ) : List UserByte := (List.range 8).map fun k => BitVec.ofNat 8 (w / 256 ^ k)

/-- `exec` from the array of addresses on: the stack pointer. -/
@[irreducible] def execPush (kend : ℕ) (image : Loaded) : Vm.Kernel (Option ℕ) :=
  let sp := push image.sp ((image.ustack.length + 1) * 8)
  if sp < image.sz - pgsize then bad kend image.pagetable image.sz
  else do
    let r ← Vm.copyout image.pagetable sp ((image.ustack ++ [0]).flatMap wordBytes)
    if r < 0 then bad kend image.pagetable image.sz
    else pure (some sp)

/-- The part of a path after the last slash. -/
def lastElement : List UserByte → List UserByte → List UserByte
  | last, [] => last
  | last, c :: path => if c = 47 then lastElement path path else lastElement last path

/-- What `exec` does once the new memory is complete. -/
def execCommit (kend p : ℕ) (path : List UserByte) (entry : ℕ) (image : Loaded) (sp : ℕ) :
    Kernel ℤ := do
  let s ← get
  onMemory (Vm.store (s.proc p).trapframe (Vm.index 15) sp)
  setProc p fun q => { q with
    name := (lastElement path path).take 15, pagetable := image.pagetable, sz := image.sz }
  onMemory (Vm.store (s.proc p).trapframe (Vm.index 3) entry)
  onMemory (Vm.store (s.proc p).trapframe (Vm.index 6) sp)
  onMemory (Vm.procFreepagetable kend (s.proc p).pagetable (s.proc p).sz)
  pure image.ustack.length

/-- `exec(path, argv)`, called by process `p`; `file` is what `namei(path)` finds. -/
def exec (kend trampoline p : ℕ) (path : List UserByte) (argv : List (List UserByte))
    (file : Option Inode) :
    Kernel ℤ :=
  match file with
  | none => pure (-1)
  | some ip => do
    let s ← get
    match ← onMemory (execLoad kend trampoline (s.proc p).trapframe ip argv) with
    | none => pure (-1)
    | some image =>
      -- `ustack[argc] = 0`
      if maxarg ≤ image.ustack.length then fail .ustack
      else do
        match ← onMemory (execPush kend image) with
        | none => pure (-1)
        | some sp => execCommit kend p path (le (ip.read 0 64) 24 8) image sp

/-! ### Loading -/

section Loading

variable {kend root k sz va : ℕ} {own : Owners} {s : PageTables.State} {E : Vm.Fault → Prop}
  {ip : Inode}

/-- The flags of a page that the user may access. -/
def User (g : ℕ) : Prop := Nat.testBit g 4 = true

theorem le_lt (bytes : List UserByte) (off n : ℕ) : le bytes off n < 256 ^ n := by
  have hword : ∀ l : List UserByte, l.foldr (fun b word => b.toNat + 256 * word) 0 <
      256 ^ l.length := by
    intro l
    induction l with
    | nil => exact Nat.one_pos
    | cons b l ih =>
      have hb := b.isLt
      rw [List.foldr_cons, List.length_cons, Nat.pow_succ]
      omega
  refine Nat.lt_of_lt_of_le (hword _) (Nat.pow_le_pow_right (by decide) ?_)
  exact List.length_take_le n _

theorem flags2perm_lt (flags : ℕ) : flags2perm flags < 2 ^ 10 := by
  unfold flags2perm
  split_ifs <;> decide

theorem user_entry (xperm : ℕ) : User (2 ||| 16 ||| xperm ||| 1) := by
  rw [User, Nat.testBit_or, Nat.testBit_or, show Nat.testBit (2 ||| 16) 4 = true by decide,
    Bool.true_or, Bool.true_or]

/-- **`loadseg`** finds all its pages, and changes frames of user memory only. -/
theorem loadsegLoop_image {offset n i : ℕ} (hkend : 0 < kend) (h : Image kend own root k User s)
    (hva : va + sz ≤ k * pgsize) (hi : i < sz + pgsize) (hn : sz + pgsize ≤ i + n * pgsize) :
    Ends E (loadsegLoop root va ip offset sz n i) s fun _ t s' =>
      t = [] ∧ Image kend own root k User s' ∧
      Changes own own s s' := by
  induction n generalizing i s with
  | zero => omega
  | succ n ih =>
    rw [loadsegLoop]
    by_cases hend : i < sz
    · rw [if_pos hend, ends_bind]
      refine (Vm.walkaddr_image h).post ?_
      rintro pa t s₁ ⟨rfl, rfl, hpa⟩
      have hpage : (va + i) / pgsize < k := Nat.div_lt_of_lt_mul (by rw [Nat.mul_comm]; omega)
      have hframe : own pa = .frame ((va + i) / pgsize) := by
        refine hpa.resolve_right fun h => ?_
        have hle := h.2 fun g hg => hg
        omega
      have hne : pa ≠ 0 := by
        have hram := h.heap.page pa (by rw [hframe]; exact nofun)
        omega
      rw [if_neg hne]
      dsimp only
      rw [ends_bind]
      refine (Vm.moveIn_image h hframe).post ?_
      rintro _ t s₂ ⟨rfl, h₂, hchange₂⟩
      refine ends_ite.2 ⟨fun _ => ends_pure.2 ⟨rfl, h₂, hchange₂⟩, fun _ => ?_⟩
      refine (ih h₂ (by omega) ?_).post fun _ t s₃ h₃ => ?_
      · rw [Nat.succ_mul] at hn
        omega
      · obtain ⟨rfl, h₃, hchange₃⟩ := h₃
        exact ⟨rfl, h₃, hchange₂.trans hchange₃⟩
    · rw [if_neg hend, ends_pure]
      exact ⟨rfl, h, .refl⟩

theorem loadseg_image {offset : ℕ} (hkend : 0 < kend) (h : Image kend own root k User s)
    (hva : va + sz ≤ k * pgsize) : Ends E (loadseg root va ip offset sz) s fun _ t s' => t = [] ∧
      Image kend own root k User s' ∧ Changes own own s s' := by
  refine loadsegLoop_image hkend h hva (by simp only [pgsize]; omega) ?_
  simp only [pgsize]
  omega

/-- A segment that passes the checks lies in the memory that was allocated for it. -/
theorem segment_fits {vaddr filesz memsz : ℕ} (hvaddr : vaddr < 256 ^ 8) (hmemsz : memsz < 256 ^ 8)
    (hfile : filesz ≤ memsz) (hwrap : ¬ (vaddr + memsz) % 2 ^ 64 < vaddr)
    (hsz : (vaddr + memsz) % 2 ^ 64 ≤ sz) : vaddr + filesz % 2 ^ 32 ≤ pages sz * pgsize := by
  have hpages := Vm.pages_eq sz
  simp only [pgsize]
  omega

/-- **The loop over the program headers** leaves memory of the size it reports. -/
theorem loadSegments_image {n off : ℕ} (hkend : 0 < kend)
    (h : Image kend own root (pages sz) User s) :
    Ends E (loadSegments kend root ip n off sz) s fun r t s' => (r.1 = true → t = []) ∧
      ∃ own', Image kend own' root (pages r.2) User s' ∧ Changes own own' s s' := by
  induction n generalizing off sz own s with
  | zero =>
    rw [loadSegments, ends_pure]
    exact ⟨fun _ => rfl, own, h, .refl⟩
  | succ n ih =>
    have hstop : ((false, sz).1 = true → ([] : List Event) = []) ∧
        ∃ own', Image kend own' root (pages sz) User s ∧ Changes own own' s s :=
      ⟨fun _ => rfl, own, h, .refl⟩
    rw [loadSegments]
    refine ends_ite.2 ⟨fun _ => ends_pure.2 hstop, fun _ => ?_⟩
    refine ends_ite.2 ⟨fun _ => ih h, fun _ => ?_⟩
    refine ends_ite.2 ⟨fun _ => ends_pure.2 hstop, fun hmemsz => ?_⟩
    refine ends_ite.2 ⟨fun _ => ends_pure.2 hstop, fun hwrap => ?_⟩
    refine ends_ite.2 ⟨fun _ => ends_pure.2 hstop, fun haligned => ?_⟩
    rw [ends_bind]
    refine (Vm.uvmalloc_image hkend (flags2perm_lt _) (user_entry _) h).post ?_
    rintro sz₁ t s₁ (⟨own₁, hchange₁, ⟨rfl, h₁⟩ | ⟨hne, rfl, hmax, h₁⟩⟩)
    · rw [if_pos rfl, ends_pure]
      exact ⟨nofun, own₁, h₁, hchange₁⟩
    rw [if_neg hne, ends_bind]
    refine (loadseg_image hkend h₁ ?_).post fun r t s₂ h₂ => ?_
    · refine segment_fits (le_lt _ _ _) (le_lt _ _ _) (by omega) hwrap ?_
      rw [hmax]
      exact Nat.le_max_right _ _
    · obtain ⟨rfl, h₂, hchange₂⟩ := h₂
      refine ends_ite.2 ⟨fun _ => ends_pure.2 ⟨nofun, own₁, h₂, hchange₁.trans hchange₂⟩,
        fun _ => ?_⟩
      refine (ih h₂).post ?_
      rintro r t s₃ ⟨htrace, own₃, h₃, hchange₃⟩
      exact ⟨htrace, own₃, h₃, (hchange₁.trans hchange₂).trans hchange₃⟩

/-- **The loop over the arguments** changes frames of user memory only. -/
theorem pushArgs_image {G : ℕ → Prop} {stackbase sp : ℕ} {argv : List (List UserByte)}
    {ustack : List ℕ} (h : Image kend own root k G s) :
    Ends E (pushArgs root stackbase argv sp ustack) s fun _ t s' =>
      t = [] ∧ Image kend own root k G s' ∧ Changes own own s s' := by
  induction argv generalizing sp ustack s with
  | nil =>
    rw [pushArgs, ends_pure]
    exact ⟨rfl, h, .refl⟩
  | cons arg argv ih =>
    rw [pushArgs]
    refine ends_ite.2 ⟨fun _ => ends_pure.2 ⟨rfl, h, .refl⟩, fun _ => ?_⟩
    refine ends_ite.2 ⟨fun _ => ends_pure.2 ⟨rfl, h, .refl⟩, fun _ => ?_⟩
    rw [ends_bind]
    refine (Vm.copyout_image h).post ?_
    rintro r t s₁ ⟨rfl, h₁, hchange₁⟩
    refine ends_ite.2 ⟨fun _ => ends_pure.2 ⟨rfl, h₁, hchange₁⟩, fun _ => ?_⟩
    refine (ih h₁).post ?_
    rintro _ t s₂ ⟨rfl, h₂, hchange₂⟩
    exact ⟨rfl, h₂, hchange₁.trans hchange₂⟩

/-- Everything is as it was: the free pages are the same, and no page of others has changed. -/
def Back (kend : ℕ) (own : Owners) (s s' : PageTables.State) : Prop :=
  Heap kend own s' ∧ Changes own own s s'

/-- **The label `bad`** frees the new memory. -/
theorem bad_image {α : Type} {G : ℕ → Prop} {own' : Owners} {s' : PageTables.State}
    (hkend : 0 < kend)
    (hidle : Idle own) (h : Image kend own' root (pages sz) G s')
    (hchange : Changes own own' s s') :
    Ends E (bad kend root sz : Vm.Kernel (Option α)) s' fun r _ s'' =>
      r = none ∧ Back kend own s s'' := by
  have hroot : root ≠ 0 := by
    obtain ⟨m, ht, -, -⟩ := h.table
    have hram := h.heap.page root (by rw [(ht.pages root .root).2 rfl]; exact nofun)
    omega
  rw [bad, ends_bind, ends_emit, ends_bind, ends_guarded]
  refine ⟨fun _ => ?_, fun h => absurd hroot h⟩
  refine (Vm.procFreepagetable_image hkend h).post ?_
  rintro _ t s₂ ⟨rfl, own₂, hh₂, hidle₂, hchange₂⟩
  have hall := hchange.trans hchange₂
  rw [hall.eq_of_idle hidle hidle₂] at hh₂ hall
  exact ends_pure.2 ⟨rfl, hh₂, hall⟩

/-- Without a table there is nothing to free. -/
theorem bad_start {α : Type} {s' : PageTables.State} (h : Back kend own s s') :
    Ends E (bad kend 0 0 : Vm.Kernel (Option α)) s' fun r _ s'' =>
      r = none ∧ Back kend own s s'' := by
  rw [bad, ends_bind, ends_emit, ends_bind, ends_guarded]
  exact ⟨fun hne => absurd rfl hne, fun _ => ends_pure.2 ⟨rfl, h⟩⟩

/-- **`exec` up to the arguments** has new memory in the end, or leaves everything as it was. -/
theorem execLoad_image {trampoline trapframe : ℕ} {argv : List (List UserByte)} (hkend : 0 < kend)
    (htramp : pgsize ∣ trampoline) (htrap : pgsize ∣ trapframe) (hh : Heap kend own s)
    (hidle : Idle own) :
    Ends E (execLoad kend trampoline trapframe ip argv) s fun r t s' =>
      (r = none ∧ Back kend own s s') ∨
      t = [] ∧ ∃ image own', r = some image ∧
        Image kend own' image.pagetable (pages image.sz) (fun _ => True) s' ∧
          Changes own own' s s' := by
  have hstart : Ends E (bad kend 0 0 : Vm.Kernel (Option Loaded)) s fun r _ s' =>
      r = none ∧ Back kend own s s' := bad_start ⟨hh, .refl⟩
  rw [execLoad]
  refine ends_ite.2 ⟨fun _ => hstart.post fun _ _ _ h => .inl h, fun _ => ?_⟩
  refine ends_ite.2 ⟨fun _ => hstart.post fun _ _ _ h => .inl h, fun _ => ?_⟩
  rw [ends_bind]
  refine (Vm.procPagetable_image (G := User) hkend htramp htrap hh hidle).post ?_
  rintro root t s₁ (⟨rfl, -, hback⟩ | ⟨hne, rfl, own₁, h₁, hchange₁⟩)
  · rw [if_pos rfl]
    exact (bad_start hback).post fun _ _ _ h => .inl h
  rw [if_neg hne, ends_bind]
  have hempty : Image kend own₁ root (pages 0) User s₁ := h₁
  refine (loadSegments_image hkend hempty).post ?_
  rintro r t s₂ ⟨htrace, own₂, h₂, hchange₂⟩
  have hc₂ := hchange₁.trans hchange₂
  rcases r with ⟨ok, sz⟩
  cases ok with
  | false => exact (bad_image hkend hidle h₂ hc₂).post fun _ _ _ h => .inl h
  | true =>
    obtain rfl := htrace rfl
    have hround : pages (Vm.pgroundup sz) = pages sz := by
      rw [pages, Vm.pgroundup_eq sz, Vm.pgroundup_mul, Nat.mul_div_cancel _ (by decide)]
    dsimp only at h₂ ⊢
    rw [← hround] at h₂
    have hbase := Vm.pgroundup_eq sz
    generalize Vm.pgroundup sz = base at h₂ hbase ⊢
    rw [ends_bind]
    refine (Vm.uvmalloc_image hkend (by decide) (user_entry 4) h₂).post ?_
    rintro sz₁ t s₃ (⟨own₃, hchange₃, ⟨rfl, h₃⟩ | ⟨hne₃, rfl, hmax, h₃⟩⟩)
    · rw [if_pos rfl]
      exact (bad_image hkend hidle h₃ (hc₂.trans hchange₃)).post fun _ _ _ h => .inl h
    have hsz : sz₁ = base + 2 * pgsize := by omega
    have hguard : sz₁ - 2 * pgsize = pages sz * pgsize := by
      rw [hsz, Nat.add_sub_cancel, hbase]
    have hlt : pages sz < pages sz₁ := by
      rw [hsz, hbase]
      simp only [Vm.pages_eq, pgsize]
      omega
    rw [if_neg hne₃, hguard, ends_bind]
    refine (Vm.uvmclear_image h₃ hlt).post ?_
    rintro _ t s₄ ⟨rfl, h₄, hchange₄⟩
    rw [ends_bind]
    refine (pushArgs_image h₄).post ?_
    rintro r t s₅ ⟨rfl, h₅, hchange₅⟩
    have hc₅ := ((hc₂.trans hchange₃).trans hchange₄).trans hchange₅
    rcases r with - | ⟨sp, ustack⟩
    · exact (bad_image hkend hidle h₅ hc₅).post fun _ _ _ h => .inl h
    · exact ends_pure.2 (.inr ⟨rfl, _, own₃, rfl, h₅, hc₅⟩)

/-- **The last part of `exec` that can fail.** -/
theorem execPush_image {image : Loaded} {own' : Owners} {s' : PageTables.State} (hkend : 0 < kend)
    (hidle : Idle own) (h : Image kend own' image.pagetable (pages image.sz) (fun _ => True) s')
    (hchange : Changes own own' s s') :
    Ends E (execPush kend image) s' fun r t s'' =>
      (r = none ∧ Back kend own s s'') ∨ t = [] ∧ r ≠ none := by
  unfold execPush
  generalize push image.sp ((image.ustack.length + 1) * 8) = sp
  generalize image.sz - pgsize = stackbase
  refine ends_ite.2 ⟨fun _ => (bad_image hkend hidle h hchange).post fun _ _ _ h => .inl h,
    fun _ => ?_⟩
  rw [ends_bind]
  refine (Vm.copyout_image h).post ?_
  rintro r t s₁ ⟨rfl, h₁, hchange₁⟩
  refine ends_ite.2 ⟨fun _ => ?_, fun _ => ends_pure.2 (.inr ⟨rfl, Option.some_ne_none _⟩)⟩
  exact (bad_image hkend hidle h₁ (hchange.trans hchange₁)).post fun _ _ _ h => .inl h

end Loading

/-! ### Processes -/

section Processes

variable {α : Type} {kend trampoline p i : ℕ} {own : Owners} {s s' s'' : State}
  {E : Vm.Fault → Prop}

theorem ends_onMemory {x : Vm.Kernel α} {Q : α → List Event → State → Prop} :
    Ends E (onMemory x) s Q ↔ Ends E x s.vm fun a t vm => Q a t { s with vm := vm } := ends_within

theorem ends_setProc {f : Proc → Proc} {Q : Unit → List Event → State → Prop} :
    Ends E (setProc i f) s Q ↔ Q () [] (s.set i f) := ends_modify

@[simp] theorem set_proc {f : Proc → Proc} : (s.set i f).proc i = f (s.proc i) := update_self _ _ _

@[simp] theorem set_vm {f : Proc → Proc} : (s.set i f).vm = s.vm := rfl

/-- Process `p` and the references to files and inodes are as they were. -/
structure Kept (p : ℕ) (s s' : State) : Prop where
  proc : s'.proc p = s.proc p
  fileRef : s'.fileRef = s.fileRef
  inodeRef : s'.inodeRef = s.inodeRef

theorem Kept.refl : Kept p s s := ⟨rfl, rfl, rfl⟩

theorem Kept.set (h : Kept p s s') (hi : i ≠ p) (f : Proc → Proc) : Kept p s (s'.set i f) :=
  ⟨(update_of_ne hi.symm _ _).trans h.proc, h.fileRef, h.inodeRef⟩

theorem Kept.vm (h : Kept p s s') (vm : PageTables.State) : Kept p s { s' with vm := vm } :=
  ⟨h.proc, h.fileRef, h.inodeRef⟩

/-- `freeproc` for a process that has no page yet. -/
theorem freeMemory_nothing {vm : PageTables.State} {sz : ℕ} :
    Ends E (freeMemory kend 0 0 sz) vm fun _ t vm' => t = [] ∧ vm' = vm := by
  rw [freeMemory, ends_bind, ends_guarded]
  refine ⟨fun h => absurd rfl h, fun _ => ends_guarded.2 ⟨fun h => absurd rfl h, fun _ => ?_⟩⟩
  exact ⟨rfl, rfl⟩

/-- `freeproc` for a process that has its trapframe only. -/
theorem freeMemory_trapframe {vm vm₁ vm₂ : PageTables.State} {tf sz : ℕ} (hkend : 0 < kend)
    (htf : own tf = .free) (h₁ : ∀ x ≠ tf, vm₁.mem x = vm.mem x)
    (hc : Changes (update own tf .held) (update own tf .held) vm₁ vm₂)
    (h : Heap kend (update own tf .held) vm₂) :
    Ends E (freeMemory kend tf 0 sz) vm₂ fun _ t vm' => t = [] ∧ Back kend own vm vm' := by
  have hheld : update own tf .held tf = .held := update_self _ _ _
  have hne : tf ≠ 0 := by
    have hram := h.page tf (by rw [hheld]; exact nofun)
    omega
  have hback : update (update own tf .held) tf .free = own := by
    rw [update_idem, ← htf, update_eq_self]
  rw [freeMemory, ends_bind, ends_guarded]
  refine ⟨fun _ => ?_, fun h => absurd hne h⟩
  refine (Vm.kfree_owns hkend h (by rw [hheld]; exact nofun) (by rw [hheld]; exact nofun)).post ?_
  rintro _ t vm₃ ⟨rfl, hheap, hmem₃⟩
  have hc₃ := hc.of_held (o := .free) htf nofun nofun h₁ hmem₃
  rw [hback] at hheap hc₃
  exact ends_guarded.2 ⟨fun h => absurd rfl h, fun _ => ⟨rfl, hheap, hc₃⟩⟩

/-- `freeproc` for a process without user memory. -/
theorem freeMemory_image {G : ℕ → Prop} {own' : Owners} {vm vm₁ vm₂ : PageTables.State}
    {tf root : ℕ} (hkend : 0 < kend) (hidle : Idle own) (htf : own tf = .free)
    (h₁ : ∀ x ≠ tf, vm₁.mem x = vm.mem x) (hc : Changes (update own tf .held) own' vm₁ vm₂)
    (h : Image kend own' root (pages 0) G vm₂) :
    Ends E (freeMemory kend tf root 0) vm₂ fun _ t vm' => t = [] ∧ Back kend own vm vm' := by
  have hheld : own' tf = .held := (hc.held tf).2 (update_self _ _ _)
  have hne : tf ≠ 0 := by
    have hram := h.heap.page tf (by rw [hheld]; exact nofun)
    omega
  have hroot : root ≠ 0 := by
    obtain ⟨m, ht, -, -⟩ := h.table
    have hram := h.heap.page root (by rw [(ht.pages root .root).2 rfl]; exact nofun)
    omega
  rw [freeMemory, ends_bind, ends_guarded]
  refine ⟨fun _ => ?_, fun h => absurd hne h⟩
  refine (Vm.kfree_image hkend h hheld).post ?_
  rintro _ t vm₃ ⟨rfl, h₃, hmem₃⟩
  have hc₃ := hc.of_held (o := .free) htf nofun nofun h₁ hmem₃
  refine ends_guarded.2 ⟨fun _ => ?_, fun h => absurd hroot h⟩
  refine (Vm.procFreepagetable_image hkend h₃).post ?_
  rintro _ t vm₄ ⟨rfl, own₄, hh₄, hidle₄, hc₄⟩
  have hall := hc₃.trans hc₄
  rw [hall.eq_of_idle hidle hidle₄] at hh₄ hall
  exact ⟨rfl, hh₄, hall⟩

/-- `freeproc` in terms of what it gives back. -/
theorem freeproc_ends {R : PageTables.State → Prop} (hi : i ≠ p) (hkept : Kept p s s')
    (h : Ends E (freeMemory kend (s'.proc i).trapframe (s'.proc i).pagetable (s'.proc i).sz) s'.vm
      fun _ t vm => t = [] ∧ R vm) :
    Ends E (freeproc kend i) s' fun _ t s'' => t = [] ∧ R s''.vm ∧ Kept p s s'' := by
  rw [freeproc, ends_bind, ends_get, ends_bind, ends_onMemory]
  refine h.post ?_
  rintro _ t vm ⟨rfl, hR⟩
  rw [ends_setProc]
  exact ⟨rfl, hR, (hkept.vm vm).set hi _⟩

/-- What `allocproc` makes of a free slot: it has a page for the trapframe and an empty table. -/
structure Child (kend : ℕ) (own own' : Owners) (np : ℕ) (s s' : State) : Prop where
  sz : (s'.proc np).sz = 0
  trapframe : own (s'.proc np).trapframe = .free
  changes : ∃ vm : PageTables.State, (∀ x, x ≠ (s'.proc np).trapframe → vm.mem x = s.vm.mem x) ∧
    Changes (update own (s'.proc np).trapframe .held) own' vm s'.vm
  image : Image kend own' (s'.proc np).pagetable 0 (fun _ => True) s'.vm

variable {own' own'' : Owners} {np : ℕ}

/-- The table of the child may change. -/
theorem Child.grow {vm : PageTables.State} (h : Child kend own own' np s s')
    (hc : Changes own' own'' s'.vm vm)
    (himage : Image kend own'' (s'.proc np).pagetable 0 (fun _ => True) vm) :
    Child kend own own'' np s { s' with vm := vm } := by
  obtain ⟨vm₁, hmem, hchange⟩ := h.changes
  exact ⟨h.sz, h.trapframe, ⟨vm₁, hmem, hchange.trans hc⟩, himage⟩

/-- The pages of others are as they were. -/
theorem Child.other (h : Child kend own own' np s s') {x : ℕ} (hx : own x = .other) :
    own' x = .other ∧ s'.vm.mem x = s.vm.mem x := by
  obtain ⟨vm₁, hmem, hchange⟩ := h.changes
  have hne : x ≠ (s'.proc np).trapframe := by
    intro heq
    rw [heq, h.trapframe] at hx
    cases hx
  have hx' : update own (s'.proc np).trapframe .held x = .other := by
    rwa [update_of_ne hne]
  exact ⟨(hchange.other x).2 hx', (hchange.mem x (.inl hx')).trans (hmem x hne)⟩

/-- **`freeproc`** gives back all that the child has. -/
theorem Child.freeproc_back (h : Child kend own own' np s s') (hkend : 0 < kend) (hidle : Idle own)
    (hnp : np ≠ p) (hkept : Kept p s s') : Ends E (freeproc kend np) s' fun _ _ s'' =>
      Back kend own s.vm s''.vm ∧ Kept p s s'' := by
  obtain ⟨vm₁, hmem, hchange⟩ := h.changes
  have hfree := freeMemory_image (E := E) hkend hidle h.trapframe hmem hchange h.image
  rw [← h.sz] at hfree
  exact (freeproc_ends hnp hkept hfree).post fun _ _ _ hs => hs.2

/-- `allocproc` when it has found slot `i`. -/
theorem found_child (hkend : 0 < kend) (htramp : pgsize ∣ trampoline) (hh : Heap kend own s.vm)
    (hidle : Idle own) (hi : i ≠ p) (hroot : (s.proc i).pagetable = 0) (hsz : (s.proc i).sz = 0) :
    Ends E (found kend trampoline i) s fun r t s' =>
      (r = none ∧ Back kend own s.vm s'.vm ∧ Kept p s s') ∨
        t = [] ∧ ∃ own', r = some i ∧ Kept p s s' ∧ Child kend own own' i s s' := by
  rw [found, ends_bind, allocpid, ends_bind, ends_get, ends_bind, ends_modify, ends_pure, ends_bind,
    ends_setProc]
  generalize hA : State.set _ i _ = A
  have hkept : Kept p s A := by
    have hpid : Kept p s { s with nextpid := s.nextpid + 1 } := ⟨rfl, rfl, rfl⟩
    rw [← hA]
    exact hpid.set hi _
  have hvm : A.vm = s.vm := by rw [← hA, set_vm]
  have hrootA : (A.proc i).pagetable = 0 := by rwa [← hA, set_proc]
  have hszA : (A.proc i).sz = 0 := by rwa [← hA, set_proc]
  rw [ends_bind, ends_onMemory, hvm]
  refine (Vm.kalloc_owns hh).post fun tf t vm₁ h₁ => ?_
  rw [ends_bind, ends_setProc]
  obtain ⟨rfl, -, rfl⟩ | ⟨hne, rfl, hfree, hheap, hmem⟩ := h₁
  · rw [if_pos rfl, ends_bind]
    refine (freeproc_ends hi ((hkept.vm s.vm).set hi _) ?_).post fun _ t s' h =>
      ends_pure.2 (.inl ⟨rfl, h.2⟩)
    rw [set_proc, hrootA]
    refine freeMemory_nothing.post fun _ t vm h => ⟨h.1, ?_⟩
    rw [show vm = s.vm from h.2]
    exact ⟨hh, .refl⟩
  have haligned := (hh.page tf (by rw [hfree]; exact nofun)).1
  have hidle' : Idle (update own tf .held) := by
    intro x
    rcases eq_or_ne x tf with rfl | hx
    · exact .inr (.inr (update_self _ _ _))
    · rw [update_of_ne hx]
      exact hidle x
  rw [if_neg hne, ends_bind, ends_onMemory, set_vm]
  refine (Vm.procPagetable_image (G := fun _ => True) hkend htramp haligned hheap hidle').post
    fun root t vm₂ h₂ => ?_
  have hkept₂ := ((((hkept.vm vm₁).set hi fun q => { q with trapframe := tf }).vm vm₂).set hi
    fun q => { q with pagetable := root })
  rw [ends_bind, ends_setProc]
  obtain ⟨rfl, -, hheap₂, hc₂⟩ | ⟨hne₂, rfl, own', himage, hc₂⟩ := h₂
  · rw [if_pos rfl, ends_bind]
    refine (freeproc_ends hi hkept₂ ?_).post fun _ t s' h => ends_pure.2 (.inl ⟨rfl, h.2⟩)
    rw [set_proc, set_proc]
    exact freeMemory_trapframe hkend hfree hmem hc₂ hheap₂
  · rw [if_neg hne₂, ends_pure]
    refine .inr ⟨rfl, own', rfl, hkept₂, ?_⟩
    have hproc : ((State.set
        { (State.set { A with vm := vm₁ } i fun q => { q with trapframe := tf }) with
        vm := vm₂ } i fun q => { q with pagetable := root }).proc i) =
        { A.proc i with trapframe := tf, pagetable := root } := by
      rw [set_proc, set_proc]
    refine ⟨?_, ?_, ?_, ?_⟩
    · rwa [hproc]
    · rwa [hproc]
    · rw [hproc]
      exact ⟨vm₁, hmem, hc₂⟩
    · rwa [hproc]

/-- **`allocproc`** makes a child, or leaves everything as it was. -/
theorem allocproc_child (hkend : 0 < kend) (htramp : pgsize ∣ trampoline) (hh : Heap kend own s.vm)
    (hidle : Idle own) (hp : (s.proc p).state ≠ .unused)
    (hunused : ∀ i, (s.proc i).state = .unused → (s.proc i).pagetable = 0 ∧ (s.proc i).sz = 0) :
    Ends E (allocproc kend trampoline) s fun r t s' =>
      (r = none ∧ Back kend own s.vm s'.vm ∧ Kept p s s') ∨
        t = [] ∧ ∃ np own', r = some np ∧ np ≠ p ∧ Kept p s s' ∧ Child kend own own' np s s' := by
  rw [allocproc, ends_bind, ends_get]
  rcases hfind : (List.range nproc).find? fun i => (s.proc i).state = .unused with - | i
  · exact .inl ⟨rfl, ⟨hh, .refl⟩, .refl⟩
  have hi : (s.proc i).state = .unused := by simpa using List.find?_some hfind
  have hne : i ≠ p := by
    rintro rfl
    exact hp hi
  refine (found_child hkend htramp hh hidle hne (hunused i hi).1 (hunused i hi).2).post
    fun r t s' h => ?_
  obtain hback | ⟨rfl, own', rfl, hkept, hchild⟩ := h
  · exact .inl hback
  · exact .inr ⟨rfl, i, own', rfl, hne, hkept, hchild⟩

end Processes

/-! ### Calls that fail -/

section Calls

variable {α : Type} {kend trampoline p : ℕ} {s s' : State} {Q : State → Prop}

/-- If a call records a refusal or goes to `bad`, or if it returns `-1`, then it returns `-1`, in a
state with `Q`. -/
def FailsWith (x : Kernel ℤ) (s : State) (Q : State → Prop) : Prop :=
  (x s).trace ≠ [] ∨ (x s).val = .ok (-1) → (x s).val = .ok (-1) ∧ Q (x s).state

theorem failsWith_of_ends {x : Kernel ℤ}
    (h : Ends (fun _ => False) x s fun r _ s' => r = -1 ∧ Q s') :
    FailsWith x s Q := by
  obtain ⟨r, t, s', hrun, rfl, hQ⟩ := h.exists_runs
  obtain ⟨hval, hstate⟩ := hrun.returns
  intro _
  rw [hval, hstate]
  exact ⟨rfl, hQ⟩

/-- A part without record that does not return `-1` cannot fail. -/
theorem failsWith_of_quiet {x : Kernel ℤ} (hquiet : Quiet x) (hval : (x s).val ≠ .ok (-1)) :
    FailsWith x s Q := by
  rintro (htrace | h)
  · exact absurd (hquiet s) htrace
  · exact absurd h hval

/-- **Sequencing**: if the first part has recorded something, the second one has to return `-1`. -/
theorem failsWith_bind {x : Kernel α} {f : α → Kernel ℤ}
    (h : Ends (fun _ => False) x s fun a t s₁ => t = [] ∧ FailsWith (f a) s₁ Q ∨
      Ends (fun _ => False) (f a) s₁ fun r _ s' => r = -1 ∧ Q s') : FailsWith (x >>= f) s Q := by
  obtain ⟨a, t, s₁, hrun, ⟨rfl, hf⟩ | hf⟩ := h.exists_runs
  · have heq : (x >>= f) s = f a s₁ := by
      change Prog.bind x f s = f a s₁
      unfold Prog.bind
      rw [show x s = _ from hrun]
      rfl
    rwa [FailsWith, heq]
  · refine failsWith_of_ends (ends_bind.2 (hrun.ends_iff.2 ?_))
    exact hf

theorem quiet_onMemory {x : Vm.Kernel α} (hx : Quiet x) : Quiet (onMemory x) := hx.within

theorem quiet_lift {x : PageTables.Kernel α} : Quiet (Vm.lift x) := quiet_filterTrace

theorem quiet_setProc {i : ℕ} {f : Proc → Proc} : Quiet (setProc i f) := quiet_modify

theorem quiet_freewalk (k root : ℕ) : Quiet (Vm.freewalk kend k root) := by
  induction k generalizing root with
  | zero => exact quiet_fail
  | succ k ih =>
    refine .bind (.forRange (fun i => ?_) 0 512) fun _ => quiet_lift
    refine quiet_get.bind fun s => ?_
    exact .ite ((ih _).bind fun _ => quiet_lift) (.ite quiet_fail quiet_pure)

theorem quiet_procFreepagetable (root sz : ℕ) : Quiet (Vm.procFreepagetable kend root sz) := by
  refine quiet_lift.bind fun _ => quiet_lift.bind fun _ => ?_
  exact .bind (.ite quiet_lift quiet_pure) fun _ => quiet_freewalk 3 root

theorem quiet_dupOfile (p np i : ℕ) : Quiet (dupOfile p np i) := by
  refine quiet_get.bind fun s => ?_
  rcases (s.proc p).ofile i with - | f
  · exact quiet_pure
  · exact .bind (quiet_get.bind fun s => .ite quiet_fail quiet_modify) fun _ => quiet_setProc

theorem quiet_forkFinish (p np : ℕ) : Quiet (forkFinish p np) := by
  refine quiet_get.bind fun s => quiet_setProc.bind fun _ => ?_
  refine (quiet_onMemory quiet_modify).bind fun _ => (quiet_onMemory quiet_lift).bind fun _ => ?_
  refine (Quiet.forRange (quiet_dupOfile p np) 0 nofile).bind fun _ => ?_
  exact quiet_modify.bind fun _ => quiet_setProc.bind fun _ => quiet_pure

theorem quiet_execCommit (path : List UserByte) (entry : ℕ) (image : Loaded) (sp : ℕ) :
    Quiet (execCommit kend p path entry image sp) := by
  refine quiet_get.bind fun s => (quiet_onMemory quiet_lift).bind fun _ => quiet_setProc.bind
    fun _ => ?_
  refine (quiet_onMemory quiet_lift).bind fun _ => (quiet_onMemory quiet_lift).bind fun _ => ?_
  exact (quiet_onMemory (quiet_procFreepagetable _ _)).bind fun _ => quiet_pure

theorem forkFinish_nonneg {np : ℕ} {r : ℤ} (h : Returns (forkFinish p np) s r s') : 0 ≤ r := by
  simp only [forkFinish, returns_bind, returns_pure] at h
  obtain ⟨s₀, _, -, _, _, -, _, _, -, _, _, -, _, _, -, _, _, -, _, _, -, rfl, -⟩ := h
  exact Int.natCast_nonneg _

theorem execCommit_nonneg {path : List UserByte} {entry sp : ℕ} {image : Loaded} {r : ℤ}
    (h : Returns (execCommit kend p path entry image sp) s r s') : 0 ≤ r := by
  simp only [execCommit, returns_bind, returns_pure] at h
  obtain ⟨s₀, _, -, _, _, -, _, _, -, _, _, -, _, _, -, _, _, -, rfl, -⟩ := h
  exact Int.natCast_nonneg _

theorem val_ne_of_nonneg {x : Kernel ℤ} (h : ∀ r s', Returns x s r s' → 0 ≤ r) :
    (x s).val ≠ .ok (-1) := by
  intro hval
  have hneg := h (-1) (x s).state ⟨hval, rfl⟩
  omega

variable {own : Owners}

/-- **A failed `fork`** leaves everything as it was. -/
theorem fork_failsWith (hkend : 0 < kend) (htramp : pgsize ∣ trampoline) (hh : Heap kend own s.vm)
    (hidle : Idle own) (hp : (s.proc p).state ≠ .unused)
    (hunused : ∀ i, (s.proc i).state = .unused → (s.proc i).pagetable = 0 ∧ (s.proc i).sz = 0)
    (hpar : Vm.Parent own (s.proc p).pagetable (s.proc p).sz s.vm) :
    FailsWith (fork kend trampoline p) s fun s' => Back kend own s.vm s'.vm ∧ Kept p s s' := by
  refine failsWith_bind ((allocproc_child hkend htramp hh hidle hp hunused).post fun r t s₁ h => ?_)
  obtain ⟨rfl, hback⟩ | ⟨rfl, np, own', rfl, hnp, hkept, hchild⟩ := h
  · exact .inr (ends_pure.2 ⟨rfl, hback⟩)
  refine .inl ⟨rfl, failsWith_bind (ends_get.2 (.inl ⟨rfl, failsWith_bind ?_⟩))⟩
  have hpar' : Vm.Parent own' (s.proc p).pagetable (s.proc p).sz s₁.vm :=
    hpar.congr (fun x hx => (hchild.other hx).1) fun x hx => (hchild.other hx).2
  rw [ends_onMemory, hkept.proc]
  refine (Vm.uvmcopy_image hkend hpar' hchild.image).post ?_
  rintro r t vm (⟨own'', hc, ⟨rfl, -, himage⟩ | ⟨rfl, rfl, -⟩⟩)
  · rw [if_pos (by decide), ends_bind]
    refine .inr (((hchild.grow hc himage).freeproc_back hkend hidle hnp (hkept.vm vm)).post ?_)
    exact fun _ t s' h => ends_pure.2 ⟨rfl, h⟩
  · rw [if_neg (by decide)]
    exact .inl ⟨rfl, failsWith_of_quiet (quiet_forkFinish p np)
      (val_ne_of_nonneg fun _ _ => forkFinish_nonneg)⟩

/-- **A failed `exec`** leaves everything as it was. -/
theorem exec_failsWith {path : List UserByte} {argv : List (List UserByte)} {file : Option Inode}
    (hkend : 0 < kend) (htramp : pgsize ∣ trampoline) (hh : Heap kend own s.vm) (hidle : Idle own)
    (htrap : pgsize ∣ (s.proc p).trapframe) :
    FailsWith (exec kend trampoline p path argv file) s fun s' =>
      Back kend own s.vm s'.vm ∧ Kept p s s' := by
  rcases file with - | ip
  · exact failsWith_of_ends (ends_pure.2 ⟨rfl, ⟨hh, .refl⟩, .refl⟩)
  refine failsWith_bind (ends_get.2 (.inl ⟨rfl, failsWith_bind (ends_onMemory.2 ?_)⟩))
  refine (execLoad_image hkend htramp htrap hh hidle).post ?_
  rintro r t vm (⟨rfl, hback⟩ | ⟨rfl, image, own', rfl, himage, hchange⟩)
  · exact .inr (ends_pure.2 ⟨rfl, hback, Kept.refl.vm vm⟩)
  refine .inl ⟨rfl, ?_⟩
  dsimp only
  by_cases hmax : maxarg ≤ image.ustack.length
  · rw [if_pos hmax]
    exact failsWith_of_quiet quiet_fail nofun
  rw [if_neg hmax]
  refine failsWith_bind ?_
  rw [ends_onMemory]
  refine (execPush_image hkend hidle himage hchange).post ?_
  rintro r t vm' (⟨rfl, hback⟩ | ⟨rfl, hne⟩)
  · exact .inr (ends_pure.2 ⟨rfl, hback, (Kept.refl.vm vm).vm vm'⟩)
  · obtain ⟨sp, rfl⟩ := Option.ne_none_iff_exists'.1 hne
    exact .inl ⟨rfl, failsWith_of_quiet (quiet_execCommit path _ image sp)
      (val_ne_of_nonneg fun _ _ => execCommit_nonneg)⟩

end Calls

/-! ### Everything is given back -/

/-- The pages on the free list. -/
def freePages (vm : PageTables.State) : Set ℕ :=
  { x | ∃ l, PointerChain (fun q => vm.mem q first) 0 vm.freelist l ∧ x ∈ l }

/-- The state in which process `p` makes a call.  The free list ends, and the pages on it lie in
memory and are not in use for the table or the trapframe of the process, whose pages are mapped up
to its size.  The slots of other processes may be free; then they have no table and no memory. -/
structure Ready (kend p : ℕ) (s : State) : Prop where
  list : ∃ l, PointerChain (fun q => s.vm.mem q first) 0 s.vm.freelist l
  ram : ∀ x ∈ freePages s.vm, pgsize ∣ x ∧ kend ≤ x ∧ x < phystop
  table : ∀ x, InTree link s.vm.mem (s.proc p).pagetable x → x ∉ freePages s.vm
  mapped : ∀ v, v * pgsize < (s.proc p).sz →
    ∃ f g, lookup s.vm.mem (s.proc p).pagetable v = some (f, g)
  trapframe : (s.proc p).trapframe ∉ freePages s.vm
  aligned : pgsize ∣ (s.proc p).trapframe
  running : (s.proc p).state ≠ .unused
  unused : ∀ i, (s.proc i).state = .unused → (s.proc i).pagetable = 0 ∧ (s.proc i).sz = 0

/-- The same pages are free, and all that process `p` has is as it was: its slot with the size and
the open files, the map of its table, the trapframe, and the references to files and inodes.  No
page that is in use has changed. -/
structure Unchanged (p : ℕ) (s s' : State) : Prop where
  free : freePages s'.vm = freePages s.vm
  used : ∀ x ∉ freePages s.vm, s'.vm.mem x = s.vm.mem x
  proc : s'.proc p = s.proc p
  map : ∀ v, lookup s'.vm.mem (s.proc p).pagetable v = lookup s.vm.mem (s.proc p).pagetable v
  trapframe : s'.vm.mem (s.proc p).trapframe = s.vm.mem (s.proc p).trapframe
  fileRef : s'.fileRef = s.fileRef
  inodeRef : s'.inodeRef = s.inodeRef

/-- `kalloc` has returned `0` during the call, or the call went to the label `bad`, or it returned
`-1`. -/
def Failed (o : Outcome State Event Vm.Fault ℤ) : Prop :=
  .refused ∈ o.trace ∨ .bad ∈ o.trace ∨ o.val = .ok (-1)

section GiveBack

variable {kend trampoline p x : ℕ} {own : Owners} {s s' : State} {vm : PageTables.State}

theorem mem_freePages (h : Heap kend own vm) : x ∈ freePages vm ↔ own x = .free := by
  obtain ⟨l, hl, hfree⟩ := h.free
  constructor
  · rintro ⟨l', hl', hx⟩
    rw [← hl.unique hl'] at hx
    exact (hfree x).1 hx
  · intro hx
    exact ⟨l, hl, (hfree x).2 hx⟩

open Classical in
/-- Before a call, a page is free or not the concern of the call. -/
noncomputable def owners (vm : PageTables.State) : Owners :=
  fun x => if x ∈ freePages vm then .free else .other

theorem owners_free : owners vm x = .free ↔ x ∈ freePages vm := by
  unfold owners
  split_ifs with h
  · exact ⟨fun _ => h, fun _ => rfl⟩
  · exact ⟨nofun, fun hx => absurd hx h⟩

theorem owners_other : owners vm x = .other ↔ x ∉ freePages vm := by
  unfold owners
  split_ifs with h
  · exact ⟨nofun, fun hx => absurd h hx⟩
  · exact ⟨fun _ => h, fun _ => rfl⟩

theorem idle_owners : Idle (owners vm) := by
  intro x
  by_cases hx : x ∈ freePages vm
  · exact .inr (.inl (owners_free.2 hx))
  · exact .inl (owners_other.2 hx)

theorem Ready.heap (h : Ready kend p s) : Heap kend (owners s.vm) s.vm := by
  obtain ⟨l, hl⟩ := h.list
  refine ⟨⟨l, hl, fun x => ?_⟩, fun x hx => h.ram x ?_⟩
  · rw [owners_free]
    refine ⟨fun hx => ⟨l, hl, hx⟩, ?_⟩
    rintro ⟨l', hl', hx⟩
    rwa [hl.unique hl']
  · by_contra hfree
    exact hx (owners_other.2 hfree)

theorem Ready.parent (h : Ready kend p s) :
    Vm.Parent (owners s.vm) (s.proc p).pagetable (s.proc p).sz s.vm :=
  ⟨h.mapped, fun x hx => owners_other.2 (h.table x hx)⟩

theorem Ready.unchanged (h : Ready kend p s) (hback : Back kend (owners s.vm) s.vm s'.vm)
    (hkept : Kept p s s') : Unchanged p s s' := by
  have hused : ∀ x, owners s.vm x = .other → s'.vm.mem x = s.vm.mem x :=
    fun x hx => hback.2.mem x (.inl hx)
  refine ⟨?_, fun x hx => hused x (owners_other.2 hx), hkept.proc, fun v => ?_, ?_, hkept.fileRef,
    hkept.inodeRef⟩
  · ext x
    rw [mem_freePages hback.1, owners_free]
  · exact Vm.lookup_other h.parent.apart hused
  · exact hused _ (owners_other.2 h.trapframe)

theorem Failed.gives_back {x : Kernel ℤ} (h : Ready kend p s) (hfailed : Failed (x s))
    (hx : FailsWith x s fun s' => Back kend (owners s.vm) s.vm s'.vm ∧ Kept p s s') :
    (x s).val = .ok (-1) ∧ Unchanged p s (x s).state := by
  have hcond : (x s).trace ≠ [] ∨ (x s).val = .ok (-1) := by
    rcases hfailed with hmem | hmem | hval
    · exact .inl (List.ne_nil_of_mem hmem)
    · exact .inl (List.ne_nil_of_mem hmem)
    · exact .inr hval
  obtain ⟨hval, hback, hkept⟩ := hx hcond
  exact ⟨hval, h.unchanged hback hkept⟩

/-- **Failed calls give everything back.**  If `fork` or `exec` is refused a page, or finds a fault
in the file or the arguments, then it returns `-1`, the same pages are free, and the process is as
it was. -/
theorem failed_calls_give_back (hkend : kernbase ≤ kend) (htramp : pgsize ∣ trampoline)
    (h : Ready kend p s) :
    (Failed (fork kend trampoline p s) → (fork kend trampoline p s).val = .ok (-1) ∧
      Unchanged p s (fork kend trampoline p s).state) ∧
    ∀ path argv file, Failed (exec kend trampoline p path argv file s) →
      (exec kend trampoline p path argv file s).val = .ok (-1) ∧
        Unchanged p s (exec kend trampoline p path argv file s).state := by
  have hpos : 0 < kend := Nat.lt_of_lt_of_le (by decide) hkend
  refine ⟨fun hfailed => ?_, fun path argv file hfailed => ?_⟩
  · exact hfailed.gives_back h
      (fork_failsWith hpos htramp h.heap idle_owners h.running h.unused h.parent)
  · exact hfailed.gives_back h (exec_failsWith hpos htramp h.heap idle_owners h.aligned)

/-- Process `0` runs without user memory, and one page is free. -/
def onePageLeft : State where
  vm := ⟨fun _ _ => 0, 0x81fff000⟩
  proc i := ⟨if i = 0 then .running else .unused, 0, 0, 0, 0, none, 0, if i = 0 then 0x80100000
    else 0, if i = 0 then 0x80101000 else 0, fun _ => none, 0, []⟩
  nextpid := 1
  fileRef _ := 0
  inodeRef _ := 0

theorem freePages_onePageLeft : freePages onePageLeft.vm = {0x81fff000} := by
  have hchain : PointerChain (fun q => onePageLeft.vm.mem q first) 0 onePageLeft.vm.freelist
      [0x81fff000] :=
    .cons (by decide) .nil
  ext x
  constructor
  · rintro ⟨l, hl, hx⟩
    rw [← hchain.unique hl] at hx
    exact List.mem_singleton.1 hx
  · intro hx
    exact ⟨_, hchain, List.mem_singleton.2 hx⟩

theorem ready_onePageLeft : Ready 0x80020000 0 onePageLeft := by
  refine ⟨⟨_, .cons (by decide) .nil⟩, fun x hx => ?_, fun x hx => ?_, fun v hv => ?_,
    ?_, by decide, by decide, fun i hi => ?_⟩
  · rw [freePages_onePageLeft] at hx
    obtain rfl : x = 0x81fff000 := hx
    decide
  · obtain ⟨P, hP⟩ := hx
    rw [Vm.page_clear rfl] at hP
    split_ifs at hP
    cases hP
    rw [freePages_onePageLeft]
    exact fun h => absurd (Set.mem_singleton_iff.1 h) (by decide)
  · exact absurd hv (Nat.not_lt_zero _)
  · rw [freePages_onePageLeft]
    exact fun h => absurd (Set.mem_singleton_iff.1 h) (by decide)
  · rcases Nat.eq_zero_or_pos i with rfl | hpos
    · cases hi
    · exact ⟨if_neg (Nat.ne_of_gt hpos), rfl⟩

/-- The header of an ELF file, and nothing else. -/
def elfHeader : Inode where
  read off n := (([0x7F, 0x45, 0x4C, 0x46] ++ List.replicate 60 0).drop off).take n
  read_le _ _ := List.length_take_le _ _

/-- `fork` gets a page for the trapframe and none for the table; `exec` gets one for the root of the
table and none for the next level. -/
theorem calls_give_page_back :
    Event.refused ∈ (fork 0x80020000 0x80007000 0 onePageLeft).trace ∧
    (fork 0x80020000 0x80007000 0 onePageLeft).val = .ok (-1) ∧
    Unchanged 0 onePageLeft (fork 0x80020000 0x80007000 0 onePageLeft).state ∧
    (exec 0x80020000 0x80007000 0 [] [] (some elfHeader) onePageLeft).trace = [.refused, .bad] ∧
    (exec 0x80020000 0x80007000 0 [] [] (some elfHeader) onePageLeft).val = .ok (-1) ∧
    Unchanged 0 onePageLeft
      (exec 0x80020000 0x80007000 0 [] [] (some elfHeader) onePageLeft).state := by
  have hfork : Event.refused ∈ (fork 0x80020000 0x80007000 0 onePageLeft).trace := by decide +kernel
  have hexec : (exec 0x80020000 0x80007000 0 [] [] (some elfHeader) onePageLeft).trace =
      [.refused, .bad] := by decide +kernel
  obtain ⟨hforks, hexecs⟩ := @failed_calls_give_back 0x80020000 0x80007000 0 onePageLeft (by decide)
    (by decide) ready_onePageLeft
  obtain ⟨hval, hsame⟩ := hforks (.inl hfork)
  obtain ⟨hval', hsame'⟩ := hexecs [] [] (some elfHeader) (.inl (by rw [hexec]; decide))
  exact ⟨hfork, hval, hsame, hexec, hval', hsame'⟩

end GiveBack

end RaidSystem.Processes
