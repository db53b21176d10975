/-
**The metadata of the array: `struct raid`.**

`kernel/raid.h` keeps everything the array knows about itself in one `struct raid`, which lives at
the start of a kernel page and is copied to block `0` of every disk.  This module models that
structure, together with the order of its 32-bit words in memory.

The layout matters because the program indexes the tables of the structure with numbers it has not
checked: the sentinel `-1` of the role tables is used as a disk number, and a block number is used
as an index of `disk_state`.  In the compiled program such an access reaches a neighbouring word,
and the word it reaches decides what happens next.

* `RaidType`, `DState` — the two enumerations; `RaidType.other` is a value that is none of the
  five types, since `init_raid` stores its argument unchecked;
* `Raid` — the structure.  The role tables and the fields that hold `-1` are read as signed;
* `Word`, `Raid.locate` — which field a word of the structure belongs to.  Words that are none of
  its fields may still be in its page, where the cache slots follow it (`Machine.around`);
* `Raid.word`, `Raid.setWord` — reading and writing a word by its position.

The pointers `cached_data_disks[i]` are left out: whenever they are used they hold the address of
the `i + 1`-st sector of the page (`RaidSystem/Machine.lean` works with that sector directly).
-/

import Mathlib.Algebra.Group.Nat.Defs
import Mathlib.Algebra.Ring.Int.Defs
import Mathlib.Data.Nat.Notation

set_option autoImplicit false

namespace RaidSystem

open Function

/-! ### Enumerations -/

/-- `enum RAID_TYPE`.  `other v` is the 32-bit value `v` that names none of the five types. -/
inductive RaidType
  | RAID0
  | RAID1
  | RAID0_1
  | RAID4
  | RAID5
  | other (v : ℕ)
deriving DecidableEq

namespace RaidType

/-- The number that represents a type in memory. -/
def code : RaidType → ℕ
  | RAID0 => 0
  | RAID1 => 1
  | RAID0_1 => 2
  | RAID4 => 3
  | RAID5 => 4
  | other v => v

/-- The type that an `int` argument is taken for: the enumeration is unsigned. -/
def ofInt (v : ℤ) : RaidType :=
  match (v % 2 ^ 32).toNat with
  | 0 => RAID0
  | 1 => RAID1
  | 2 => RAID0_1
  | 3 => RAID4
  | 4 => RAID5
  | w => other w

/-- The types for which failing or repairing a disk leaves the role tables alone. -/
def plain : RaidType → Bool
  | RAID0 | RAID4 | RAID5 => true
  | _ => false

end RaidType

/-- `enum dstate`. -/
inductive DState
  | ALIVE
  | DEAD
  | REPAIRED
deriving DecidableEq

/-- The number that represents a disk state in memory. -/
def DState.code : DState → ℤ
  | ALIVE => 0
  | DEAD => 1
  | REPAIRED => 2

theorem DState.code_eq_one_iff (x : DState) : x.code = 1 ↔ x = DEAD := by
  cases x <;> simp [code]

/-! ### The structure -/

/-- `struct raid`, with the two scalar fields of its `cache` member at the end. -/
structure Raid where
  raidInitialized : Bool
  type : RaidType
  numOfDisks : ℕ
  blockSize : ℕ
  maxBlocks : ℕ
  numDeadDisks : ℕ
  maxDeadDisks : ℕ
  diskState : ℕ → DState
  dataDisks : ℕ → ℤ
  copyDisks : ℕ → ℤ
  reserveDisk : ℤ
  stripeCursor : ℤ
  parityDisk : ℤ
  /-- `cache.stripe`; `-1` when nothing is cached. -/
  stripe : ℤ
  /-- `cache.parity_cached`; `-1` when nothing is cached. -/
  parityCached : ℤ

namespace Raid

/-- A structure all of whose bytes are zero. -/
def zero : Raid where
  raidInitialized := false
  type := .RAID0
  numOfDisks := 0
  blockSize := 0
  maxBlocks := 0
  numDeadDisks := 0
  maxDeadDisks := 0
  diskState := fun _ => .ALIVE
  dataDisks := fun _ => 0
  copyDisks := fun _ => 0
  reserveDisk := 0
  stripeCursor := 0
  parityDisk := 0
  stripe := 0
  parityCached := 0

/-- Disk `d`, counted from one, is marked dead. -/
def Dead (m : Raid) (d : ℕ) : Prop := m.diskState (d - 1) = .DEAD

instance (m : Raid) (d : ℕ) : Decidable (m.Dead d) := inferInstanceAs (Decidable (_ = _))

/-! ### The layout -/

/-- The field a word of the structure belongs to. -/
inductive Word
  | raidInitialized
  | type
  | numOfDisks
  | blockSize
  | maxBlocks
  | numDeadDisks
  | maxDeadDisks
  | diskState (i : ℕ)
  | dataDisks (i : ℕ)
  | copyDisks (i : ℕ)
  | reserveDisk
  | stripeCursor
  | parityDisk
  | stripe
  | parityCached
  /-- No field of the structure: padding, a pointer of `cached_data_disks`, a word of the cache
  slots that follow the structure in its page, or memory outside the page. -/
  | outside
deriving DecidableEq

/-- The position of `disk_state[0]`, counted in words from the start of the structure. -/
def diskStateBase : ℤ := 7

/-- The position of `data_disks[0]` when there are `n` disks. -/
def dataDisksBase (n : ℕ) : ℤ := 7 + n

/-- The position of `copy_disks[0]` when there are `n` disks. -/
def copyDisksBase (n : ℕ) : ℤ := 7 + n + (n / 2 : ℕ)

/-- The position of `reserve_disk` when there are `n` disks. -/
def reserveDiskPos (n : ℕ) : ℤ := 7 + n + (n / 2 : ℕ) + (n / 2 : ℕ)

/-- The position of `cache.stripe`: the `cache` member holds pointers, hence starts at an even
word. -/
def cachePos (n : ℕ) : ℤ := (reserveDiskPos n + 4) / 2 * 2

/-- The field that the word at position `w` belongs to; `outside` if it belongs to none. -/
def locate (n : ℕ) (w : ℤ) : Word :=
  if w = 0 then .raidInitialized
  else if w = 1 then .type
  else if w = 2 then .numOfDisks
  else if w = 3 then .blockSize
  else if w = 4 then .maxBlocks
  else if w = 5 then .numDeadDisks
  else if w = 6 then .maxDeadDisks
  else if diskStateBase ≤ w ∧ w < dataDisksBase n then .diskState (w - diskStateBase).toNat
  else if dataDisksBase n ≤ w ∧ w < copyDisksBase n then .dataDisks (w - dataDisksBase n).toNat
  else if copyDisksBase n ≤ w ∧ w < reserveDiskPos n then .copyDisks (w - copyDisksBase n).toNat
  else if w = reserveDiskPos n then .reserveDisk
  else if w = reserveDiskPos n + 1 then .stripeCursor
  else if w = reserveDiskPos n + 2 then .parityDisk
  else if w = cachePos n then .stripe
  else if w = cachePos n + 1 then .parityCached
  else .outside

/-- The word at position `w`, read as a signed number.  `mem` holds the words that are not fields
of the structure: those of the cache slots, and of memory outside the page (`Machine.around`). -/
def word (n : ℕ) (m : Raid) (mem : ℤ → ℤ) (w : ℤ) : ℤ :=
  match locate n w with
  | .raidInitialized => if m.raidInitialized then 1 else 0
  | .type => Int.bmod m.type.code (2 ^ 32)
  | .numOfDisks => Int.bmod m.numOfDisks (2 ^ 32)
  | .blockSize => Int.bmod m.blockSize (2 ^ 32)
  | .maxBlocks => Int.bmod m.maxBlocks (2 ^ 32)
  | .numDeadDisks => Int.bmod m.numDeadDisks (2 ^ 32)
  | .maxDeadDisks => Int.bmod m.maxDeadDisks (2 ^ 32)
  | .diskState i => (m.diskState i).code
  | .dataDisks i => m.dataDisks i
  | .copyDisks i => m.copyDisks i
  | .reserveDisk => m.reserveDisk
  | .stripeCursor => m.stripeCursor
  | .parityDisk => m.parityDisk
  | .stripe => m.stripe
  | .parityCached => m.parityCached
  | .outside => mem w

/-- Storing `v` in the word at position `w`.  Only the words from `data_disks` to `parity_disk`
are stored to by index; a store that lands elsewhere is not modelled. -/
def setWord (n : ℕ) (m : Raid) (w v : ℤ) : Option Raid :=
  match locate n w with
  | .dataDisks i => some { m with dataDisks := update m.dataDisks i v }
  | .copyDisks i => some { m with copyDisks := update m.copyDisks i v }
  | .reserveDisk => some { m with reserveDisk := v }
  | .stripeCursor => some { m with stripeCursor := v }
  | .parityDisk => some { m with parityDisk := v }
  | _ => none

section Layout

variable {n : ℕ} {j : ℤ}

theorem locate_diskState (h₀ : 0 ≤ j) (h : j < n) :
    locate n (diskStateBase + j) = .diskState j.toNat := by
  unfold locate diskStateBase dataDisksBase
  grind

theorem locate_dataDisks (h₀ : 0 ≤ j) (h : j < (n / 2 : ℕ)) :
    locate n (dataDisksBase n + j) = .dataDisks j.toNat := by
  unfold locate diskStateBase dataDisksBase copyDisksBase
  grind

theorem locate_copyDisks (h₀ : 0 ≤ j) (h : j < (n / 2 : ℕ)) :
    locate n (copyDisksBase n + j) = .copyDisks j.toNat := by
  unfold locate diskStateBase dataDisksBase copyDisksBase reserveDiskPos
  grind

theorem word_diskState {m : Raid} {mem : ℤ → ℤ} (h₀ : 0 ≤ j) (h : j < n) :
    m.word n mem (diskStateBase + j) = (m.diskState j.toNat).code := by
  simp only [word, locate_diskState h₀ h]

section

variable (h₀ : 0 ≤ j) (h : j < (n / 2 : ℕ))

include h₀ h

theorem word_dataDisks {m : Raid} {mem : ℤ → ℤ} :
    m.word n mem (dataDisksBase n + j) = m.dataDisks j.toNat := by
  simp only [word, locate_dataDisks h₀ h]

theorem word_copyDisks {m : Raid} {mem : ℤ → ℤ} :
    m.word n mem (copyDisksBase n + j) = m.copyDisks j.toNat := by
  simp only [word, locate_copyDisks h₀ h]

theorem setWord_dataDisks {m : Raid} {v : ℤ} :
    m.setWord n (dataDisksBase n + j) v =
      some { m with dataDisks := update m.dataDisks j.toNat v } := by
  simp only [setWord, locate_dataDisks h₀ h]

theorem setWord_copyDisks {m : Raid} {v : ℤ} :
    m.setWord n (copyDisksBase n + j) v =
      some { m with copyDisks := update m.copyDisks j.toNat v } := by
  simp only [setWord, locate_copyDisks h₀ h]

end

/-- `disk_state[-2]` is the failure count. -/
theorem locate_diskState_neg_two : locate n (diskStateBase + -2) = .numDeadDisks := by
  simp [locate, diskStateBase]

end Layout

end Raid

end RaidSystem
