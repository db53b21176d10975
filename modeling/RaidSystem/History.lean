/-
**Histories: what a caller may expect.**

A run of the array is a sequence of calls.  Its history, the list of the calls made so far with the
latest first, says what a read ought to deliver, without any reference to disks: the data of the
latest earlier write of the same block.

* `latest` — the contents of a logical block according to a history;
* `Answers` — what a reply should be, given the history;
* `returns_exec_readRaid` and so on — what one call of a run returns, in terms of the function
  behind it.
-/

import RaidSystem.Raid
import RaidSystem.Reach

set_option autoImplicit false

namespace RaidSystem

open Prog

/-- What the latest write to block `b` has written; zeros when there was none. -/
def latest : List Call → ℕ → Block
  | [], _ => 0
  | .writeRaid blkn (some data) :: h, b => if blkn = b then data else latest h b
  | _ :: h, b => latest h b

section Latest

variable {h : List Call} {b : ℕ} {x : ℤ}

@[simp] theorem latest_nil : latest [] b = 0 := rfl

@[simp] theorem latest_write {data : Block} :
    latest (.writeRaid x (some data) :: h) b = if x = b then data else latest h b := rfl

@[simp] theorem latest_write_none : latest (.writeRaid x none :: h) b = latest h b := rfl

@[simp] theorem latest_read {data : Option Block} :
    latest (.readRaid x data :: h) b = latest h b := rfl

@[simp] theorem latest_diskFailRaid : latest (.diskFailRaid x :: h) b = latest h b := rfl

@[simp] theorem latest_diskRepairedRaid : latest (.diskRepairedRaid x :: h) b = latest h b := rfl

end Latest

/-- The argument with which `init_raid` creates an array of type `t`. -/
theorem ofInt_code {t : RaidType} (ht : ∀ v, t ≠ .other v) : RaidType.ofInt t.code = t := by
  cases t with
  | other v => exact absurd rfl (ht v)
  | _ => rfl

/-- The kinds of calls. -/
def Call.isRead : Call → Bool
  | .readRaid _ _ => true
  | _ => false

def Call.isAccess : Call → Bool
  | .readRaid _ _ => true
  | .writeRaid _ _ => true
  | _ => false

def Call.isFailure : Call → Bool
  | .diskFailRaid _ => true
  | _ => false

/-- The seven system calls. -/
def Call.isSystemCall : Call → Bool
  | .reboot | .elsewhere _ => false
  | _ => true

/-- The reply is a success, and the reply to a read begins with the first 512 bytes of the latest
write. -/
def Answers (h : List Call) (c : Call) (r : Reply) : Prop :=
  r.code = 0 ∧
    ∀ x data, c = .readRaid x data → r.data.map Prod.fst = some (latest h x.toNat).1

/-- A read of block `x` succeeds and delivers the first 512 bytes `y`. -/
def Delivers (cfg : Config) (s : Machine) (x : ℤ) (y : Sector) : Prop :=
  ∃ buf r s', Returns (exec cfg (.readRaid x (some buf))) s r s' ∧ r.code = 0 ∧
    r.data.map Prod.fst = some y

/-- What a caller gets to see of a call, if it returns. -/
def replyOf (o : Outcome Machine Access Fault Reply) : Option Reply :=
  match o.val with
  | .ok r => some r
  | .error _ => none

theorem replyOf_of_returns {x : Kernel Reply} {s s' : Machine} {r : Reply} (h : Returns x s r s') :
    replyOf (x s) = some r := by
  simp [replyOf, h.1]

theorem returns_of_replyOf {x : Kernel Reply} {s : Machine} {r : Reply}
    (h : replyOf (x s) = some r) : Returns x s r (x s).state := by
  refine ⟨?_, rfl⟩
  unfold replyOf at h
  cases hv : (x s).val with
  | ok r' => simpa [hv] using h
  | error e => simp [hv] at h

/-! ### The calls of a run -/

section Exec

variable {cfg : Config} {s s' : Machine} {r : Reply} {x : ℤ} {data : Option Block}

theorem returns_exec_initRaid : Returns (exec cfg (.initRaid x)) s r s' ↔
    ∃ c, Returns (initRaid cfg (.ofInt x)) s c s' ∧ r = { code := c } :=
  returns_bind_pure

theorem returns_exec_readRaid : Returns (exec cfg (.readRaid x data)) s r s' ↔
    ∃ v, Returns (readRaid cfg x data) s v s' ∧ r = { code := v.1, data := v.2 } :=
  returns_bind_pure

theorem returns_exec_writeRaid : Returns (exec cfg (.writeRaid x data)) s r s' ↔
    ∃ v, Returns (writeRaid cfg x data) s v s' ∧ r = { code := v.1, data := v.2 } :=
  returns_bind_pure

theorem returns_exec_diskFailRaid : Returns (exec cfg (.diskFailRaid x)) s r s' ↔
    ∃ c, Returns (diskFailRaid cfg x) s c s' ∧ r = { code := c } :=
  returns_bind_pure

theorem returns_exec_diskRepairedRaid : Returns (exec cfg (.diskRepairedRaid x)) s r s' ↔
    ∃ c, Returns (diskRepairedRaid cfg x) s c s' ∧ r = { code := c } :=
  returns_bind_pure

theorem returns_exec_infoRaid : Returns (exec cfg .infoRaid) s r s' ↔
    ∃ v, Returns (infoRaid cfg) s v s' ∧ r = { code := v.1, info := v.2 } :=
  returns_bind_pure

theorem returns_exec_destroyRaid : Returns (exec cfg .destroyRaid) s r s' ↔
    ∃ c, Returns (destroyRaid cfg) s c s' ∧ r = { code := c } :=
  returns_bind_pure

theorem returns_exec_reboot : Returns (exec cfg .reboot) s r s' ↔
    r = { code := 0 } ∧ s' = { s with raidMetadata := none, pages := 0 } := by
  rw [exec, modify_returns.bind_iff]
  exact returns_pure

theorem returns_exec_elsewhere {kmem : ℤ → ℤ} : Returns (exec cfg (.elsewhere kmem)) s r s' ↔
    r = { code := 0 } ∧ s' = { s with kmem := kmem } := by
  rw [exec, modify_returns.bind_iff]
  exact returns_pure

end Exec

end RaidSystem
