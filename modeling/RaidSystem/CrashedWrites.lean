/-
**Writing files across crashes.**

`filewrite` (`kernel/file.c`) puts each call of `writei` between `begin_op` and `end_op`.  A call of
`writei` may change many blocks: the free map, new blocks of data and a new indirect block, and the
inode.  The log makes these changes together or not at all.  `RaidSystem.LogRecovery` proves this of
lists of updates; here the updates are those that the calls record with `log_write`.

* `writeChunk_area` — a call records every block that it changes, and none in the log area;
* `operation`, `Writes` — the transaction of a call, and calls one after the other;
* `writes_survive_crash` — **after a crash and recovery the file system is in order, and the files
  are as they were after some of the calls, with all those that were committed**.

The bytes that are written are mapped.  `RaidSystem.FaultingWrite` shows that a call which finds
some that are not may change a block without recording it.
-/

import RaidSystem.BlockOwnership
import RaidSystem.FaultingWrite
import RaidSystem.LogRecovery

set_option autoImplicit false

namespace RaidSystem.Fs

open Prog Logged Function
open LogRecovery (Layout Transaction CrashesAfter Interrupted Within apply applyAll recoverFromLog)

/-! ### The blocks that are recorded -/

section Area

variable {sb : Superblock} {s s' : State} {ip i ind bn off n tot fuel : ℕ} {user : Option ℕ}
  {src : ℕ → Byte} {E : Fault → Prop} {t t' : List LogEvent}

/-- The inodes, the free map and the data. -/
def Superblock.Area (sb : Superblock) (b : ℕ) : Prop := sb.inodestart ≤ b ∧ b < sb.size

/-- The areas are in the order in which `mkfs` puts them. -/
structure Superblock.Ordered (sb : Superblock) : Prop extends sb.Sound where
  inodestart_le : sb.inodestart ≤ sb.bmapstart

theorem Open.area (hsb : sb.Ordered) (h : Open sb s ip) {r : BlockRef} (h0 : s.refs sb ip r ≠ 0) :
    sb.Area (s.refs sb ip r) := by
  have hin := h.owned.inside r h0
  have hlt := hsb.bmapstart_lt h.size_pos
  have hle := hsb.inodestart_le
  exact ⟨by omega, hin.2⟩

/-- What is recorded is in the area. -/
def InArea (sb : Superblock) (t : List LogEvent) : Prop := ∀ b ∈ recorded t, sb.Area b

theorem inArea_nil : InArea sb [] := by simp [InArea]

theorem inArea_logWrite : InArea sb (.logWrite i :: t) ↔ sb.Area i ∧ InArea sb t :=
  List.forall_mem_cons

theorem InArea.append (h : InArea sb t) (h' : InArea sb t') : InArea sb (t ++ t') := by
  rw [InArea, recorded_append]
  exact List.forall_mem_append.2 ⟨h, h'⟩

/-- The blocks that `bmap` records. -/
theorem Open.inArea (hsb : sb.Ordered) (h : Open sb s ip)
    (hrec : ∀ c ∈ recorded t, NewRecord sb t c ∨ c = (s.din ip).addrs ndirect ∧ c ≠ 0) :
    InArea sb t := by
  have hle := hsb.inodestart_le
  have hlt := hsb.bmapstart_lt h.size_pos
  have hdata := h.owned.le
  intro c hc
  rcases hrec c hc with (⟨hlo, hhi⟩ | ⟨-, hlo, hhi⟩) | ⟨rfl, h0⟩
  · exact ⟨by omega, by omega⟩
  · exact ⟨by omega, hhi⟩
  · have hrefs : s.refs sb ip (.addr (s.inum ip) ndirect) = (s.din ip).addrs ndirect :=
      Open.refs_addr
    rw [← hrefs] at h0 ⊢
    exact h.area hsb h0

/-- **The loop of `writei`** records the blocks that it changes. -/
theorem writeLoop_area (hsb : sb.Ordered) (h : Open sb s ip) (hfuel : n - tot < fuel)
    (huser : ∀ tot m, tot + m ≤ n → copied user tot m = m)
    (hmax : off + (n - tot) ≤ maxfile * bsize) :
    Ends (fun _ => False) (Logged.writeLoop sb ip user src n fuel tot off) s fun _ t s' =>
      Open sb s' ip ∧ Covers s (recorded t) s' ∧ InArea sb t := by
  induction fuel generalizing tot off s with
  | zero => omega
  | succ fuel ih =>
    rw [Logged.writeLoop]
    split_ifs with hlt
    · have hbn : off / bsize < maxfile := Nat.div_lt_of_lt_mul (by rw [Nat.mul_comm]; omega)
      have hpos : 0 < chunk n tot off := chunk_pos hlt
      have hrest : chunk n tot off ≤ n - tot := chunk_le_rest
      rw [ends_bind]
      refine (bmap_logged hsb.toSound h hbn).post ?_
      rintro a t₁ s₁ ⟨⟨h₁, -⟩, ⟨hcovers, -⟩, hrec⟩
      have harea : InArea sb t₁ := h₁.opened.inArea hsb hrec
      rw [← h₁.grown.inum] at h₁
      split_ifs with ha
      · rw [ends_pure, List.append_nil]
        exact ⟨h₁.opened, hcovers, harea⟩
      · obtain rfl := h₁.block
        rw [ends_bind, ends_modify, huser tot _ (by omega), if_neg (Nat.lt_irrefl _),
          Logged.logWrite, ends_bind, ends_emit]
        have hopen : ∀ d, Open sb (s₁.setBlock
            (s₁.refs sb ip (blockRef (s₁.inum ip) (off / bsize))) d) ip := fun d =>
          (h₁.opened.setData hsb.toSound blockRef_isData blockRef_inum ha).1
        refine (ih (hopen _) (by omega) (by omega)).post ?_
        rintro _ t₂ s₂ ⟨h₂, hcovers₂, harea₂⟩
        refine ⟨h₂, by simpa using (hcovers.trans Covers.setBlock).trans hcovers₂, harea.append ?_⟩
        exact inArea_logWrite.2 ⟨h₁.opened.area hsb ha, harea₂⟩
    · rw [ends_pure]
      exact ⟨h, .refl, inArea_nil⟩

/-- **A call of `writei`** on a locked inode. -/
theorem writei_area (hsb : sb.Ordered) (h : Consistent sb s) (hl : Locked s ip)
    (hoff : off < 2 ^ 32) (hn : n < 2 ^ 32) (huser : ∀ tot m, tot + m ≤ n → copied user tot m = m) :
    Ends (fun _ => False) (Logged.writei sb ip user src off n) s fun _ t s' =>
      Covers s (recorded t) s' ∧ InArea sb t := by
  by_cases hbad : (s.din ip).size < off ∨ 2 ^ 32 ≤ off + n ∨ maxfile * bsize < off + n
  · rw [(Logged.writei_refused hoff hn hbad).ends_iff]
    exact ⟨.refl, inArea_nil⟩
  · rw [Logged.ends_writei (by omega) (by omega)]
    refine (writeLoop_area hsb (h.opened hl) (by omega) huser (by omega)).post ?_
    rintro r t s₁ ⟨h₁, hcovers, harea⟩
    rw [recorded_append]
    refine ⟨hcovers.trans (Covers.setBlock (s := s₁.setDin ip _)), harea.append ?_⟩
    have hlt := hsb.inodes _ h₁.inum_lt
    have hstart := hsb.bmapstart_lt h₁.size_pos
    have hle := h₁.owned.le
    exact inArea_logWrite.2 ⟨⟨Nat.le_add_left _ _, by omega⟩, inArea_nil⟩

/-- **What `filewrite` does between `begin_op` and `end_op`**: the file system stays in order, and
every block that changes is recorded. -/
theorem writeChunk_area (hsb : sb.Ordered) (h : Consistent sb s) (hnum : Numbered sb s)
    (hoff : off < 2 ^ 32) (hn : n < 2 ^ 32) (huser : ∀ k, user = some k → i + n ≤ k) :
    Ends Tolerated (writeChunk sb ip user src i off n) s fun _ t s' =>
      Consistent sb s' ∧ Numbered sb s' ∧
      Covers s (recorded t) s' ∧ InArea sb t := by
  have hcopied : ∀ tot m, tot + m ≤ n → copied (user.map (· - i)) tot m = m := by
    intro tot m hm
    cases user with
    | none => rfl
    | some k =>
      have := huser k rfl
      change min m (k - i - tot) = m
      omega
  rw [writeChunk, ends_bind, Logged.lift, ends_filterTrace]
  refine (ilock_ends h hnum).post ?_
  rintro _ t s₁ ⟨rfl, h₁, hnum₁, hl, hdisk⟩
  have hkept : Ends Tolerated (writei sb ip (user.map (· - i)) (fun j => src (i + j)) off n) s₁
      fun _ t s' => Kept sb s₁ t s' := writei_kept hsb.toSound h₁ hnum₁ hl hoff hn
  refine ((ends_unlogged.1 hkept).and (writei_area hsb h₁ hl hoff hn hcopied)).post ?_
  rintro _ t s' ⟨hkept, hcovers, harea⟩
  refine ⟨hkept.consistent, hkept.numbered, fun b hb => ?_, harea⟩
  rw [hcovers b hb, hdisk]

end Area

/-! ### Calls one after the other -/

/-- What `commit` finds when the call with the trace `t` has ended in `s`: the recorded blocks, as
their buffers are then. -/
def operation (t : List LogEvent) (s : State) : Transaction :=
  (recorded t).map fun b => (b, fun _ => s.disk b)

/-- Calls one after the other, and the transactions of those that write; the others leave the disk
as it is. -/
inductive Writes (sb : Superblock) : State → List Transaction → State → Prop
  | done {s : State} : Writes sb s [] s
  | other {s s₁ s' : State} {a : Action} {ts : List Transaction} (ha : Allowed sb s a)
      (hrun : Returns (step sb a) s () s₁) (hdisk : s₁.disk = s.disk) (h : Writes sb s₁ ts s') :
      Writes sb s ts s'
  | write {s s₁ s' : State} {ip i off n : ℕ} {user : Option ℕ} {src : ℕ → Byte} {r : ℤ}
      {t : List LogEvent} {ts : List Transaction} (hoff : off < 2 ^ 32) (hn : n < 2 ^ 32)
      (huser : ∀ k, user = some k → i + n ≤ k)
        (hrun : Runs (writeChunk sb ip user src i off n) s r t s₁)
      (h : Writes sb s₁ ts s') : Writes sb s (operation t s₁ :: ts) s'

section Crash

variable {sb : Superblock} {s s' : State} {l : Layout} {ts : List Transaction} {t : List LogEvent}

/-- The transaction does to the disk what the call did. -/
theorem apply_operation (h : Covers s (recorded t) s') :
    apply (operation t s') s.disk = s'.disk := by
  have hgen : ∀ (bs : List ℕ) (d : Disk), (∀ b ∉ bs, d b = s'.disk b) →
      apply (bs.map fun b => (b, fun _ => s'.disk b)) d = s'.disk := by
    intro bs
    induction bs with
    | nil => exact fun d hd => funext fun b => hd b (by simp)
    | cons c bs ih =>
      refine fun d hd => ih (update d c (s'.disk c)) fun b hb => ?_
      rcases eq_or_ne b c with rfl | hne
      · rw [update_self]
      · rw [update_of_ne hne, hd b (by simp [hb, hne])]
  exact hgen (recorded t) s.disk fun b hb => (h b hb).symm

/-- The log area is apart from the inodes, the free map and the data. -/
structure LogApart (sb : Superblock) (l : Layout) : Prop where
  ordered : sb.Ordered
  sound : l.Sound
  home : ∀ b, sb.Area b → l.Home b

/-- **The calls up to any point**: the file system is in order, and is what the transactions so far
make of the disk. -/
theorem Writes.take (hsb : LogApart sb l) (hw : Writes sb s ts s') (h : Consistent sb s)
    (hnum : Numbered sb s) (m : ℕ) : (∀ t ∈ ts, Within l t) ∧
      ∃ s₁, Writes sb s (ts.take m) s₁ ∧ Consistent sb s₁ ∧
        applyAll (ts.take m) s.disk = s₁.disk := by
  induction hw generalizing m with
  | done => exact ⟨by simp, _, by simpa using .done, h, by simp [applyAll]⟩
  | other ha hrun hdisk hrest ih =>
    obtain ⟨t, hruns⟩ := hrun.runs
    have hk := hruns.ends_iff.1 (step_kept hsb.ordered.toSound h hnum ha)
    obtain ⟨hwithin, s₁, hw₁, h₁, happly⟩ := ih hk.consistent hk.numbered m
    rw [hdisk] at happly
    exact ⟨hwithin, s₁, .other ha hrun hdisk hw₁, h₁, happly⟩
  | @write s s₀ s' ip i off n user src r t ts hoff hn huser hrun hrest ih =>
    obtain ⟨h₀, hnum₀, hcovers, harea⟩ := hrun.ends_iff.1
      (writeChunk_area hsb.ordered h hnum hoff hn huser)
    have hfirst : Within l (operation t s₀) := by
      intro p hp
      obtain ⟨b, hb, rfl⟩ := List.mem_map.1 hp
      have hlt := hsb.ordered.size_lt
      have hb' := (harea b hb).2
      exact ⟨hsb.home b (harea b hb), by omega⟩
    refine ⟨List.forall_mem_cons.2 ⟨hfirst, (ih h₀ hnum₀ 0).1⟩, ?_⟩
    cases m with
    | zero => exact ⟨s, .done, h, rfl⟩
    | succ m =>
      obtain ⟨-, s₁, hw₁, h₁, happly⟩ := ih h₀ hnum₀ m
      refine ⟨s₁, .write hoff hn huser hrun hw₁, h₁, ?_⟩
      rw [List.take_succ_cons, applyAll, List.foldl_cons, apply_operation hcovers]
      exact happly

/-- When the kernel starts, the file system is in order if it was, and its blocks are the same. -/
theorem Consistent.reboot {d : Disk} {full : ℕ → Bool} (hsb : sb.Ordered) (h : Consistent sb s)
    (hd : ∀ b, sb.Area b → d b = s.disk b) : Consistent sb (.boot d full) := by
  have hlt := hsb.bmapstart_lt (Nat.lt_of_lt_of_le h.owned.pos h.owned.le)
  have hle := hsb.inodestart_le
  have hdata := h.owned.le
  have hinode : sb.inode d = sb.inode s.disk := by
    funext inum
    unfold Superblock.inode
    split_ifs with hinum
    · have hblock := hsb.inodes inum hinum
      rw [hd (sb.iblock inum) ⟨Nat.le_add_left _ _, by omega⟩]
    · rfl
  have hrefs : refs d (sb.inode s.disk) = refs s.disk (sb.inode s.disk) := by
    refine refs_congr fun inum h0 => hd _ ?_
    have hin := h.owned.inside (.addr inum ndirect) h0
    rw [refs_addr] at hin
    exact ⟨by omega, hin.2⟩
  have howned : Owned (refs s.disk (sb.inode s.disk)) (sb.marked d) sb.datastart sb.size := by
    refine h.owned.mono fun b hb hused => ?_
    rwa [hsb.marked_congr hb fun c hc hlt => hd c ⟨by omega, by omega⟩]
  have hcovered := h.covered
  rw [← hrefs, ← hinode] at howned hcovered
  refine ⟨howned, hcovered, ?_, ?_, fun _ _ => rfl⟩
  · exact fun _ href => absurd href (Nat.lt_irrefl 0)
  · exact fun _ _ href => absurd href (Nat.lt_irrefl 0)

/-- The kernel starts on a disk with an empty log. -/
theorem recoverFromLog_empty {d : Disk} (others : ℕ → ℕ → Bool) (hl : l.Sound)
    (hempty : word (d l.start) 0 = 0) :
    ∃ u, Returns (recoverFromLog l) (LogRecovery.boot others d) () u ∧ LogRecovery.Quiet l d u := by
  have hclean : LogRecovery.Clean l d d := ⟨hempty, fun _ _ => rfl⟩
  obtain ⟨_, u, hret, hquiet⟩ := (LogRecovery.safe_recoverFromLog (E := fun _ => False) hl
    (hclean.logged hl)).returns fun _ => id
  exact ⟨u, hret, hquiet⟩

/-- **Writes survive a crash.**  Calls run on a file system that is in order, and the machine stops
after `k` of their transactions were committed; then any number of recoveries is cut off.  The next
recovery returns.  The file system is in order, and its blocks are those after the first `m`
transactions, with `m` at least `k`. -/
theorem writes_survive_crash {d d' : Disk} {full : ℕ → Bool} {others others' : ℕ → ℕ → Bool}
    {u : LogRecovery.State} {k : ℕ} (hsb : LogApart sb l) (hempty : word (s.disk l.start) 0 = 0)
    (h : Consistent sb s) (hnum : Numbered sb s) (hw : Writes sb s ts s')
    (hstart : Returns (recoverFromLog l) (LogRecovery.boot others s.disk) () u)
    (hcrash : CrashesAfter l ts u k d) (hint : Interrupted l d d') :
    ∃ u', Returns (recoverFromLog l) (LogRecovery.boot others' d') () u' ∧
      Consistent sb (.boot u'.disk full) ∧ ∃ m s₁, k ≤ m ∧ m ≤ ts.length ∧
        Writes sb s (ts.take m) s₁ ∧
        ∀ b, sb.Area b → u'.disk b = s₁.disk b := by
  have hsound := hsb.sound
  have hwithin := (hw.take hsb h hnum 0).1
  obtain ⟨u₀, hboot, hquiet⟩ := recoverFromLog_empty others hsound hempty
  obtain rfl := (hstart.unique hboot).2
  obtain ⟨m, hkm, hm, hlogged⟩ := hcrash.logged hsound hquiet hwithin
  obtain ⟨-, s₁, hw₁, h₁, happly⟩ := hw.take hsb h hnum m
  rw [happly] at hlogged
  obtain ⟨_, u', hret, hquiet'⟩ := (LogRecovery.safe_recoverFromLog (E := fun _ => False) hsound
    (hint.logged hsound hlogged)).returns fun _ => id
  have hdisk : ∀ b, sb.Area b → u'.disk b = s₁.disk b := fun b hb =>
    hquiet'.clean.rest b (hsb.home b hb)
  exact ⟨u', hret, h₁.reboot hsb.ordered hdisk, m, s₁, hkm, hm, hw₁, hdisk⟩

/-- One byte is written to an empty file, and the machine stops when the call was committed. -/
theorem writes_survive_crash_tiny : ∃ ts s' u d, ts.length = 1 ∧
    Writes tinySb (tinyState tFile) ts s' ∧ contents tinySb s' 0 = [7] ∧
    Returns (recoverFromLog ⟨3, 5⟩) (LogRecovery.boot (fun _ _ => false) (tinyState tFile).disk)
      () u ∧
    CrashesAfter ⟨3, 5⟩ ts u 1 d ∧ Interrupted ⟨3, 5⟩ d d ∧
    ∃ u', Returns (recoverFromLog ⟨3, 5⟩) (LogRecovery.boot (fun _ _ => true) d) () u' ∧
      Consistent tinySb (.boot u'.disk fun _ => false) ∧ ∃ m s₁, 1 ≤ m ∧ m ≤ ts.length ∧
        Writes tinySb (tinyState tFile) (ts.take m) s₁ ∧
        ∀ b, tinySb.Area b → u'.disk b = s₁.disk b := by
  have hsb : LogApart tinySb ⟨3, 5⟩ :=
    ⟨⟨sound_tinySb, by decide⟩, ⟨by decide, by decide⟩, fun b hb => .inl hb.2⟩
  have h : Consistent tinySb (tinyState tFile) := consistent_tinyState (by decide) (by decide)
  have hnum : Numbered tinySb (tinyState tFile) := fun _ _ => Nat.one_pos
  have hchunk : Runs (writeChunk tinySb 0 none (fun _ => 7) 0 0 1) (tinyState tFile) 1 _ _ :=
    runs_of_eval (by decide +kernel)
  have hw : Writes tinySb (tinyState tFile) [operation _ _] _ :=
    .write (by decide) (by decide) (fun _ hk => by cases hk) hchunk .done
  have hempty : word ((tinyState tFile).disk 3) 0 = 0 := word_zero
  obtain ⟨u, hstart, hquiet⟩ := recoverFromLog_empty (fun _ _ => false) hsb.sound hempty
  obtain ⟨u₁, hret, -⟩ := LogRecovery.transactions_return hsb.sound hquiet fun t ht =>
    ⟨(hw.take hsb h hnum 0).1 t ht, by
      rw [List.mem_singleton.1 ht, operation, List.length_map]
      decide +kernel⟩
  obtain ⟨_, u₂, hcommit, -⟩ := returns_bind.1 hret
  have hcrash : CrashesAfter ⟨3, 5⟩ [operation _ _] u 1 u₂.disk := .later hcommit .idle
  exact ⟨_, _, u, _, rfl, hw, by decide +kernel, hstart, hcrash, .none,
    writes_survive_crash hsb hempty h hnum hw hstart hcrash .none⟩

end Crash

end RaidSystem.Fs
