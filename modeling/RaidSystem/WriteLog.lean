/-
**What a write records in the log: `writei` and `filewrite`.**

`RaidSystem.FileSystem` has the functions below `writei` with each call of `log_write`.  Here
`filewrite` is put on top of them, whose operations are between `begin_op` and `end_op`, and the
calls are counted.

An operation has reserved room for `MAXOPBLOCKS` blocks in the log.  `filewrite` writes three blocks
of bytes at a time, which lie in up to four blocks of the file.  A new block costs a block of the
free map and itself; the indirect block may be among the new ones; and the inode is stored at the
end.  The sum is within the bound because the first of four blocks is there already.  Nothing is
assumed about the free map, so that the count holds for a disk that is not in order.

* `recorded` — the blocks that a program has recorded;
* `Logged.filewrite` — the code;
* `Recorded` — what a part of an operation may have recorded, with the indirect block counted once;
* `filewrite_within_reservation` — **each operation of `filewrite` stays within its reservation**.
-/

import Mathlib.Data.Finset.Card
import RaidSystem.FileBytes
import RaidSystem.LogAdmission
import RaidSystem.TraceFilter

set_option autoImplicit false

namespace RaidSystem.Fs

open Prog Function

/-! ### The code -/

/-- The block of a call of `log_write`. -/
def LogEvent.block : LogEvent → Option ℕ
  | .logWrite b => some b
  | .fs _ => none

/-- The blocks that were recorded with `log_write`, in order. -/
def recorded (t : List LogEvent) : List ℕ := t.filterMap LogEvent.block

@[simp] theorem recorded_nil : recorded [] = [] := rfl

@[simp] theorem recorded_append {t t' : List LogEvent} :
    recorded (t ++ t') = recorded t ++ recorded t' :=
  List.filterMap_append

@[simp] theorem recorded_logWrite {t : List LogEvent} {b : ℕ} :
    recorded (.logWrite b :: t) = b :: recorded t := rfl

@[simp] theorem recorded_fs {t : List LogEvent} {e : Event} :
    recorded (.fs e :: t) = recorded t := rfl

namespace Logged

/-- A part of a call that records nothing. -/
def lift {α : Type} (x : Kernel α) : Logged α := filterTrace (fun e => some (.fs e)) x

/-- `struct file`, of type `FD_INODE`. -/
structure File where
  writable : Bool
  ip : ℕ
  off : ℕ

/-- The bytes that `filewrite` writes at a time: `((MAXOPBLOCKS-1-1-2) / 2) * BSIZE`. -/
def maxChunk : ℕ := (Log.maxopblocks - 1 - 1 - 2) / 2 * bsize

/-- What `filewrite` does between `begin_op` and `end_op`, for the `n1` bytes from `addr + i` on. -/
def writeChunk (sb : Superblock) (ip : ℕ) (user : Option ℕ) (src : ℕ → Byte) (i off n1 : ℕ) :
    Logged ℤ := do
  lift (ilock sb ip)
  writei sb ip (user.map (· - i)) (fun j => src (i + j)) off n1

/-- The loop of `filewrite`; each operation is one entry of the trace.  The values are those of `i`
and `f->off` at its end. -/
def filewriteLoop (sb : Superblock) (ip : ℕ) (user : Option ℕ) (src : ℕ → Byte) (n : ℤ) :
    ℕ → ℕ → ℕ → Prog State (List LogEvent) Fault (ℕ × ℕ)
  | 0, _, _ => fail .looping
  | k + 1, i, off =>
    if i < n then do
      let n1 := min (n - i).toNat maxChunk
      let r ← grouped (writeChunk sb ip user src i off n1)
      let off' := if 0 < r then off + r.toNat else off
      if r ≠ n1 then pure (i, off')
      else filewriteLoop sb ip user src n k (i + r.toNat) off'
    else pure (i, off)

/-- `filewrite(f, addr, n)` for a file of type `FD_INODE`: the number returned, and `f->off`. -/
def filewrite (sb : Superblock) (f : File) (user : Option ℕ) (src : ℕ → Byte) (n : ℤ) :
    Prog State (List LogEvent) Fault (ℤ × ℕ) :=
  if f.writable = false then pure (-1, f.off)
  else do
    let r ← filewriteLoop sb f.ip user src n (n.toNat + 1) 0 f.off
    pure (if (r.1 : ℤ) = n then n else -1, r.2)

/-! ### Counting the records -/

section Count

variable {sb : Superblock} {s s₁ s' : State} {ip i ind bn k k' tot off n b : ℕ} {l l' : List ℕ}
  {user : Option ℕ} {src : ℕ → Byte}

/-- The indirect block of the inode has not been allocated. -/
def pending (s : State) (ip : ℕ) : ℕ := if (s.din ip).addrs ndirect = 0 then 1 else 0

/-- From `s` to `s'` the blocks `l` were recorded.  Besides the indirect block these are at most
`k`, and one more for the free map if the indirect block was allocated.  Addresses that the inode
had are kept. -/
structure Recorded (ip k : ℕ) (s : State) (l : List ℕ) (s' : State) : Prop where
  entry : s'.itable ip = (s.itable ip).withDin ((s.din ip).withAddrs (s'.din ip).addrs)
  kept : ∀ i, (s.din ip).addrs i ≠ 0 → (s'.din ip).addrs i = (s.din ip).addrs i
  blocks : ∃ S : Finset ℕ, S.card + pending s' ip ≤ k + pending s ip ∧
    ∀ b ∈ l, b ∈ S ∨ b = (s'.din ip).addrs ndirect ∧ b ≠ 0

namespace Recorded

theorem refl : Recorded ip 0 s [] s := ⟨rfl, fun _ _ => rfl, ∅, by simp, by simp⟩

theorem mono (h : Recorded ip k s l s') (hk : k ≤ k') (hl : l' ⊆ l) : Recorded ip k' s l' s' := by
  obtain ⟨S, hcard, hS⟩ := h.blocks
  exact ⟨h.entry, h.kept, S, by omega, fun b hb => hS b (hl hb)⟩

/-- The bytes of a block play no role. -/
theorem setBlock {d : Block} (h : Recorded ip k s l s') : Recorded ip k s l (s'.setBlock b d) :=
  ⟨h.entry, h.kept, h.blocks⟩

/-- The indirect block is counted in one part only. -/
theorem trans (h : Recorded ip k s l s₁) (h' : Recorded ip k' s₁ l' s') :
    Recorded ip (k + k') s (l ++ l') s' := by
  obtain ⟨S, hcard, hS⟩ := h.blocks
  obtain ⟨S', hcard', hS'⟩ := h'.blocks
  refine ⟨?_, ?_, S ∪ S', ?_, ?_⟩
  · rw [h'.entry, State.din, h.entry]
    rfl
  · intro i hi
    rw [h'.kept i (by rwa [h.kept i hi]), h.kept i hi]
  · have := Finset.card_union_le S S'
    omega
  · intro b hb
    rcases List.mem_append.1 hb with hb | hb
    · rcases hS b hb with hmem | ⟨rfl, h0⟩
      · exact .inl (Finset.mem_union_left _ hmem)
      · exact .inr ⟨(h'.kept _ h0).symm, h0⟩
    · rcases hS' b hb with hmem | hind
      · exact .inl (Finset.mem_union_right _ hmem)
      · exact .inr hind

/-- The number of different blocks. -/
theorem card_le (h : Recorded ip k s l s') : l.toFinset.card ≤ k + pending s ip + 1 := by
  obtain ⟨S, hcard, hS⟩ := h.blocks
  have hsub : l.toFinset ⊆ insert ((s'.din ip).addrs ndirect) S := by
    intro b hb
    rcases hS b (List.mem_toFinset.1 hb) with hmem | ⟨rfl, -⟩
    · exact Finset.mem_insert_of_mem hmem
    · exact Finset.mem_insert_self _ _
  calc l.toFinset.card ≤ (insert ((s'.din ip).addrs ndirect) S).card := Finset.card_le_card hsub
    _ ≤ S.card + 1 := Finset.card_insert_le _ _
    _ ≤ k + pending s ip + 1 := by omega

end Recorded

/-- `balloc` records a block of the free map and the new block. -/
theorem balloc_recorded : Ends (fun _ => False) (balloc sb) s fun b t s' =>
    s'.itable = s.itable ∧ ∃ x, ∀ c ∈ recorded t, c = x ∨ c = b := by
  unfold balloc
  simp only [ends_bind, ends_get, ends_modify]
  cases s.findBlock sb with
  | none => simp
  | some b =>
    simp only [logWrite, bzero, ends_bind, ends_modify, ends_emit, ends_pure]
    exact ⟨rfl, sb.bblock b, by simp⟩

/-- What `bmapAddr` records, and the addresses afterwards. -/
theorem bmapAddr_recorded : Ends (fun _ => False) (bmapAddr sb ip i) s fun a t s' =>
    s'.itable ip = (s.itable ip).withDin ((s.din ip).withAddrs (update (s.din ip).addrs i a)) ∧
      (∃ x, ∀ c ∈ recorded t, c = x ∨ c = a) ∧
      ((s.din ip).addrs i ≠ 0 → a = (s.din ip).addrs i ∧ recorded t = []) := by
  unfold bmapAddr
  simp only [ends_bind, ends_get, List.nil_append]
  split_ifs with hold
  · rw [ends_bind]
    refine balloc_recorded.post ?_
    rintro a t s₁ ⟨hitable, x, hx⟩
    split_ifs with ha
    · rw [ends_pure, List.append_nil]
      refine ⟨?_, ⟨x, fun c hc => ?_⟩, fun h => absurd hold h⟩
      · rw [hitable, ← hold, update_eq_self]
        rfl
      · rw [← ha]
        exact hx c hc
    · rw [ends_bind, ends_modify, ends_pure, List.append_nil, List.append_nil]
      refine ⟨?_, ⟨x, hx⟩, fun h => absurd hold h⟩
      rw [State.setDin_itable, update_self, State.din, hitable]
  · rw [ends_pure]
    refine ⟨?_, ⟨0, by simp⟩, fun _ => ⟨rfl, rfl⟩⟩
    rw [update_eq_self]
    rfl

theorem addrs_of_entry {addrs : ℕ → ℕ}
    (hentry : s'.itable ip = (s.itable ip).withDin ((s.din ip).withAddrs addrs)) :
    (s'.din ip).addrs = addrs := by
  rw [State.din, hentry]
  rfl

/-- A block of the file that the inode refers to directly. -/
theorem Recorded.of_direct {a x : ℕ} (hi : i ≠ ndirect)
    (hentry : s'.itable ip =
      (s.itable ip).withDin ((s.din ip).withAddrs (update (s.din ip).addrs i a)))
    (hold : (s.din ip).addrs i ≠ 0 → a = (s.din ip).addrs i ∧ l = [])
    (hl : ∀ c ∈ l, c = x ∨ c = a) :
    Recorded ip (if (s.din ip).addrs i = 0 then 2 else 1) s (a :: l) s' := by
  have haddrs := addrs_of_entry hentry
  have hind : (s'.din ip).addrs ndirect = (s.din ip).addrs ndirect := by
    rw [haddrs, update_of_ne hi.symm]
  have hpending : pending s' ip = pending s ip := by rw [pending, pending, hind]
  refine ⟨by rw [haddrs, hentry], ?_, ?_⟩
  · intro j hj
    rcases eq_or_ne j i with rfl | hne
    · rw [haddrs, update_self, (hold hj).1]
    · rw [haddrs, update_of_ne hne]
  · split_ifs with h0
    · refine ⟨{x, a}, ?_, ?_⟩
      · have := Finset.card_le_two (a := x) (b := a)
        omega
      · intro c hc
        rcases List.mem_cons.1 hc with rfl | hc
        · simp
        · rcases hl c hc with rfl | rfl <;> simp
    · obtain ⟨-, rfl⟩ := hold h0
      refine ⟨{a}, ?_, ?_⟩
      · rw [Finset.card_singleton]
        omega
      · simp

/-- The indirect block, which there is afterwards. -/
theorem Recorded.of_indirect {a x : ℕ} (ha : a ≠ 0)
    (hentry : s'.itable ip =
      (s.itable ip).withDin ((s.din ip).withAddrs (update (s.din ip).addrs ndirect a)))
    (hold : (s.din ip).addrs ndirect ≠ 0 → a = (s.din ip).addrs ndirect ∧ l = [])
    (hl : ∀ c ∈ l, c = x ∨ c = a) : Recorded ip 0 s l s' := by
  have haddrs := addrs_of_entry hentry
  have hind : (s'.din ip).addrs ndirect = a := by rw [haddrs, update_self]
  have hpending : pending s' ip = 0 := by rw [pending, hind, if_neg ha]
  refine ⟨by rw [haddrs, hentry], ?_, ?_⟩
  · intro j hj
    rcases eq_or_ne j ndirect with rfl | hne
    · rw [hind, (hold hj).1]
    · rw [haddrs, update_of_ne hne]
  · rcases eq_or_ne ((s.din ip).addrs ndirect) 0 with h0 | h0
    · refine ⟨{x}, ?_, ?_⟩
      · rw [Finset.card_singleton, hpending, pending, if_pos h0]
      · intro c hc
        rcases hl c hc with rfl | rfl
        · exact .inl (Finset.mem_singleton_self _)
        · exact .inr ⟨hind.symm, ha⟩
    · obtain ⟨-, rfl⟩ := hold h0
      refine ⟨∅, ?_, by simp⟩
      rw [Finset.card_empty, hpending]
      omega

/-- The indirect block could not be allocated. -/
theorem Recorded.of_full {x : ℕ}
    (hentry : s'.itable ip =
      (s.itable ip).withDin ((s.din ip).withAddrs (update (s.din ip).addrs ndirect 0)))
    (hold : (s.din ip).addrs ndirect = 0) (hl : ∀ c ∈ l, c = x ∨ c = 0) :
    Recorded ip 2 s (0 :: l) s' := by
  have haddrs := addrs_of_entry hentry
  rw [← hold, update_eq_self] at haddrs
  refine ⟨?_, fun j _ => by rw [haddrs], {x, 0}, ?_, ?_⟩
  · rw [haddrs, hentry, ← hold, update_eq_self]
  · have := Finset.card_le_two (a := x) (b := 0)
    rw [pending, pending, haddrs]
    omega
  · intro c hc
    rcases List.mem_cons.1 hc with rfl | hc
    · simp
    · rcases hl c hc with rfl | rfl <;> simp

/-- A block of the free map, a block of the file, and the indirect block. -/
theorem Recorded.of_entry {a : ℕ} (x : ℕ) (h0 : (s.din ip).addrs ndirect ≠ 0)
    (hitable : s'.itable = s.itable) (hl : ∀ c ∈ l, c = x ∨ c = a ∨ c = (s.din ip).addrs ndirect) :
    Recorded ip 2 s (a :: l) s' := by
  have hdin : s'.din ip = s.din ip := by rw [State.din, hitable]
  refine ⟨by rw [hitable, hdin]; rfl, fun j _ => by rw [hdin], {x, a}, ?_, ?_⟩
  · have := Finset.card_le_two (a := x) (b := a)
    rw [pending, pending, hdin]
    omega
  · intro c hc
    rcases List.mem_cons.1 hc with rfl | hc
    · simp
    · rcases hl c hc with rfl | rfl | rfl
      · simp
      · simp
      · exact .inr ⟨by rw [hdin], h0⟩

/-- A block of the file that the indirect block refers to. -/
theorem bmapEntry_recorded (h0 : (s.din ip).addrs ndirect ≠ 0) :
    Ends (fun _ => False) (bmapEntry sb ((s.din ip).addrs ndirect) bn) s fun a t s' =>
      Recorded ip 2 s (a :: recorded t) s' := by
  unfold bmapEntry
  simp only [ends_bind, ends_get, List.nil_append]
  split_ifs with hold
  · rw [ends_bind]
    refine balloc_recorded.post ?_
    rintro a t s₁ ⟨hitable, x, hx⟩
    split_ifs with ha
    · rw [ends_pure, List.append_nil]
      refine .of_entry x h0 hitable fun c hc => ?_
      rw [← ha]
      exact (hx c hc).imp_right .inl
    · simp only [logWrite, ends_bind, ends_modify, ends_emit, ends_pure]
      refine .of_entry x h0 hitable fun c hc => ?_
      simp only [recorded_append, recorded_logWrite, recorded_nil, List.nil_append, List.append_nil,
        List.mem_append, List.mem_singleton] at hc
      rcases hc with hc | hc
      · exact (hx c hc).imp_right .inl
      · exact .inr (.inr hc)
  · rw [ends_pure]
    exact .of_entry 0 h0 rfl (by simp)

/-- What a block of the file may cost: the block of the free map is spared if there is one already
that the inode refers to directly. -/
def cost (s : State) (ip bn : ℕ) : ℕ := if bn < ndirect ∧ (s.din ip).addrs bn ≠ 0 then 1 else 2

theorem cost_le : cost s ip bn ≤ 2 := by
  unfold cost
  split_ifs <;> decide

/-- **What `bmap` records, together with the block that it returns.** -/
theorem bmap_recorded (hbn : bn < maxfile) : Ends (fun _ => False) (bmap sb ip bn) s fun a t s' =>
    Recorded ip (cost s ip bn) s (a :: recorded t) s' ∧
      (a ≠ 0 → (s'.din ip).addrs (min bn ndirect) ≠ 0) := by
  unfold bmap
  split_ifs with hdirect hindirect
  · refine bmapAddr_recorded.post ?_
    rintro a t s' ⟨hentry, ⟨x, hx⟩, hold⟩
    have hcost : cost s ip bn = if (s.din ip).addrs bn = 0 then 2 else 1 := by
      simp [cost, hdirect]
    rw [hcost]
    refine ⟨.of_direct (Nat.ne_of_lt hdirect) hentry hold hx, fun ha => ?_⟩
    rw [Nat.min_eq_left (Nat.le_of_lt hdirect), State.din, hentry, Inode.withDin_din,
      Dinode.withAddrs_addrs, update_self]
    exact ha
  · have hcost : cost s ip bn = 0 + 2 := if_neg fun h => hdirect h.1
    rw [ends_bind, hcost]
    refine bmapAddr_recorded.post ?_
    rintro a t s₁ ⟨hentry, ⟨x, hx⟩, hold⟩
    split_ifs with ha
    · subst ha
      rw [ends_pure, List.append_nil]
      have h0 : (s.din ip).addrs ndirect = 0 := by
        by_contra hne
        exact hne (hold hne).1.symm
      exact ⟨.of_full hentry h0 hx, fun h => absurd rfl h⟩
    · have h₁ : Recorded ip 0 s (recorded t) s₁ := .of_indirect ha hentry hold hx
      obtain rfl : a = (s₁.din ip).addrs ndirect := by
        rw [State.din, hentry, Inode.withDin_din, Dinode.withAddrs_addrs, update_self]
      refine (bmapEntry_recorded ha).post fun b t' s' h₂ => ?_
      refine ⟨(h₁.trans h₂).mono le_rfl ?_, fun _ => ?_⟩
      · intro c hc
        simp only [recorded_append, List.mem_cons, List.mem_append] at hc ⊢
        tauto
      · rw [Nat.min_eq_right (by omega), h₂.kept _ ha]
        exact ha
  · simp only [maxfile] at hbn
    omega

/-! ### `writei` -/

/-- There are addresses for the blocks below a byte of the file: those of the blocks themselves, and
of the indirect block. -/
def Addressed (x : Dinode) (off : ℕ) : Prop := ∀ bn, bn * bsize < off → x.addrs (min bn ndirect) ≠ 0

theorem Addressed.mono {x y : Dinode} (h : Addressed x off)
    (hkept : ∀ i, x.addrs i ≠ 0 → y.addrs i = x.addrs i) : Addressed y off := by
  intro bn hbn
  rw [hkept _ (h bn hbn)]
  exact h bn hbn

/-- The bytes up to the end of a block need its address. -/
theorem Addressed.add {x : Dinode} {m : ℕ} (h : Addressed x off)
    (hblock : x.addrs (min (off / bsize) ndirect) ≠ 0) (hm : m ≤ bsize - off % bsize) :
    Addressed x (off + m) := by
  intro bn hbn
  rcases Nat.lt_or_ge (bn * bsize) off with hlt | hge
  · exact h bn hlt
  · obtain rfl : bn = off / bsize := by
      simp only [bsize] at *
      omega
    exact hblock

/-- If the bytes do not end with the block of `off`, they go on in the next one. -/
theorem next_block {j : ℕ} (hrest : tot + chunk n tot off < n)
    (hj : off % bsize + (n - tot) ≤ (j + 1) * bsize) :
    ∃ j', j = j' + 1 ∧
      (off + chunk n tot off) % bsize + (n - (tot + chunk n tot off)) ≤ (j' + 1) * bsize := by
  have hmod : off % bsize < bsize := Nat.mod_lt _ (by decide)
  have hchunk : chunk n tot off = bsize - off % bsize := by
    rw [chunk] at hrest ⊢
    omega
  rw [hchunk] at hrest ⊢
  refine ⟨j - 1, ?_, ?_⟩
  · simp only [bsize] at *
    omega
  · simp only [bsize] at *
    omega

/-- **What the loop of `writei` records**: the first block costs what it costs, and each of at most
`j` other ones costs two. -/
theorem writeLoop_recorded {fuel : ℕ} (hfuel : n - tot < fuel)
    (hmax : off + (n - tot) ≤ maxfile * bsize) (haddr : Addressed (s.din ip) off)
    (hk : tot < n → ∃ j, off % bsize + (n - tot) ≤ (j + 1) * bsize ∧
      cost s ip (off / bsize) + 2 * j ≤ k) :
    Ends (fun _ => False) (writeLoop sb ip user src n fuel tot off) s fun r t s' =>
      Recorded ip k s (recorded t) s' ∧ Addressed (s'.din ip) r.2 ∧ r.2 ≤ maxfile * bsize := by
  induction fuel generalizing tot off s k with
  | zero => omega
  | succ fuel ih =>
    rw [writeLoop]
    split_ifs with hlt
    · obtain ⟨j, hj, hcost⟩ := hk hlt
      have hbn : off / bsize < maxfile := Nat.div_lt_of_lt_mul (by rw [Nat.mul_comm]; omega)
      have hpos : 0 < chunk n tot off := chunk_pos hlt
      have hrest : chunk n tot off ≤ n - tot := chunk_le_rest
      rw [ends_bind]
      refine (bmap_recorded hbn).post ?_
      rintro a t₁ s₁ ⟨h₁, hnew⟩
      have hkept₁ : Addressed (s₁.din ip) off := haddr.mono h₁.kept
      -- the block is looked up, and not recorded
      have hstop : Recorded ip k s (recorded t₁) s₁ :=
        h₁.mono (by omega) (List.subset_cons_self _ _)
      split_ifs with ha
      · rw [ends_pure, List.append_nil]
        exact ⟨hstop, hkept₁, Nat.le_trans (Nat.le_add_right _ _) hmax⟩
      · rw [ends_bind, ends_modify]
        split_ifs with hshort
        · rw [ends_pure, List.append_nil, List.append_nil]
          exact ⟨hstop.setBlock, hkept₁, Nat.le_trans (Nat.le_add_right _ _) hmax⟩
        · have hcopy : Recorded ip (cost s ip (off / bsize)) s (recorded t₁ ++ [a]) s₁ := by
            refine h₁.mono le_rfl fun c hc => ?_
            rw [List.mem_append, List.mem_singleton] at hc
            exact List.mem_cons.2 hc.symm
          have hfuel' : n - (tot + chunk n tot off) < fuel := by omega
          have hmax' : off + chunk n tot off + (n - (tot + chunk n tot off)) ≤
              maxfile * bsize := by omega
          have hnext : tot + chunk n tot off < n →
              ∃ j', (off + chunk n tot off) % bsize + (n - (tot + chunk n tot off)) ≤
                (j' + 1) * bsize ∧
                cost s₁ ip ((off + chunk n tot off) / bsize) + 2 * j' ≤
                k - cost s ip (off / bsize) := by
            intro hlt'
            obtain ⟨j', rfl, hj'⟩ := next_block hlt' hj
            have hcost' : cost s₁ ip ((off + chunk n tot off) / bsize) ≤ 2 := cost_le
            exact ⟨j', hj', by omega⟩
          rw [logWrite, ends_bind, ends_emit]
          refine (ih (s := s₁.setBlock a _) hfuel' hmax' (hkept₁.add (hnew ha) chunk_le) hnext).post
            ?_
          rintro r t₂ s₂ ⟨h₂, hend⟩
          refine ⟨?_, hend⟩
          have hall := hcopy.setBlock.trans h₂
          rw [Nat.add_sub_cancel' (by omega)] at hall
          simpa using hall
    · rw [ends_pure]
      exact ⟨Recorded.refl.mono (Nat.zero_le _) (List.Subset.refl _), haddr, by omega⟩

/-- An inode that the caller has locked, with addresses for the blocks below its size. -/
structure Held (s : State) (ip : ℕ) : Prop where
  ref : 0 < (s.itable ip).ref
  valid : (s.itable ip).valid = true
  addressed : Addressed (s.din ip) (s.din ip).size
  size_le : (s.din ip).size ≤ maxfile * bsize

/-- Where three blocks of bytes begin in the middle of a block, there is an address for it. -/
theorem budget (h : Held s ip) (hoff : off ≤ (s.din ip).size) (hn : n ≤ maxChunk) : ∃ k,
    k + pending s ip ≤ 8 ∧
      (0 < n → ∃ j, off % bsize + (n - 0) ≤ (j + 1) * bsize ∧
        cost s ip (off / bsize) + 2 * j ≤ k) := by
  have hchunk : maxChunk = 3 * bsize := by decide
  have hpending : pending s ip ≤ 1 := by
    unfold pending
    split_ifs <;> decide
  have hcost : cost s ip (off / bsize) ≤ 2 := cost_le
  have hmod : off % bsize < bsize := Nat.mod_lt _ (by decide)
  rcases Nat.eq_zero_or_pos (off % bsize) with h0 | hpos
  · refine ⟨6, by omega, fun _ => ⟨2, ?_, by omega⟩⟩
    simp only [bsize] at *
    omega
  · have hblock : off / bsize * bsize < (s.din ip).size := by
      simp only [bsize] at *
      omega
    have haddr := h.addressed _ hblock
    have hfour : off % bsize + (n - 0) ≤ (3 + 1) * bsize := by
      simp only [bsize] at *
      omega
    rcases Nat.lt_or_ge (off / bsize) ndirect with hlt | hge
    · rw [Nat.min_eq_left (Nat.le_of_lt hlt)] at haddr
      have hone : cost s ip (off / bsize) = 1 := if_pos ⟨hlt, haddr⟩
      exact ⟨7, by omega, fun _ => ⟨3, hfour, by omega⟩⟩
    · rw [Nat.min_eq_right hge] at haddr
      have hnone : pending s ip = 0 := if_neg haddr
      exact ⟨8, by omega, fun _ => ⟨3, hfour, by omega⟩⟩

/-- The size is set at the end of `writei`. -/
theorem Held.setSize {size : ℕ} (h : Held s ip) (hrec : Recorded ip k s l s₁)
    (haddr : Addressed (s₁.din ip) size) (hsize : size ≤ maxfile * bsize)
    (hentry : s'.itable ip =
      (s₁.itable ip).withDin ((s₁.din ip).withSize (max (s.din ip).size size))) : Held s' ip := by
  have hdin : s'.din ip = (s₁.din ip).withSize (max (s.din ip).size size) := by
    rw [State.din, hentry]
    rfl
  refine ⟨?_, ?_, ?_, ?_⟩
  · rw [hentry, hrec.entry]
    exact h.ref
  · rw [hentry, hrec.entry]
    exact h.valid
  · rw [hdin]
    intro bn hbn
    rcases lt_max_iff.1 hbn with hlt | hlt
    · exact h.addressed.mono hrec.kept bn hlt
    · exact haddr bn hlt
  · rw [hdin]
    exact Nat.max_le.2 ⟨h.size_le, hsize⟩

/-- **What a call of `writei` for at most three blocks of bytes records.** -/
theorem writei_recorded (h : Held s ip) (hn : n ≤ maxChunk) :
    Ends (fun _ => False) (writei sb ip user src off n) s fun _ t s' =>
      (recorded t).toFinset.card ≤ Log.maxopblocks ∧ Held s' ip := by
  have hsize := h.size_le
  have hchunk : maxChunk = 3 * bsize := by decide
  unfold writei
  simp only [ends_bind, ends_get, List.nil_append]
  split_ifs with h₁ h₂
  · exact ends_pure.2 ⟨Nat.zero_le _, h⟩
  · exact ends_pure.2 ⟨Nat.zero_le _, h⟩
  · have hoff : off ≤ (s.din ip).size := by omega
    have hmax : off + (n - 0) ≤ maxfile * bsize := by
      simp only [maxfile, ndirect, nindirect, bsize] at *
      omega
    have haddr : Addressed (s.din ip) off := fun bn hbn => h.addressed bn (by omega)
    obtain ⟨k, hk, hbudget⟩ := budget h hoff hn
    rw [ends_bind]
    refine (writeLoop_recorded (by omega) hmax haddr hbudget).post ?_
    rintro r t s₁ ⟨hrec, hend, hle⟩
    simp only [iupdate, logWrite, ends_bind, ends_modify, ends_get, ends_emit, ends_pure]
    refine ⟨?_, ?_⟩
    · have hcard := hrec.card_le
      -- the block of the inode comes last
      simp only [recorded_append, recorded_logWrite, recorded_nil, List.nil_append, List.append_nil,
        List.toFinset_append, List.toFinset_cons, List.toFinset_nil, insert_empty_eq]
      refine Nat.le_trans (Finset.card_union_le _ _) ?_
      rw [Finset.card_singleton, Log.maxopblocks]
      omega
    · refine h.setSize hrec hend hle ?_
      change update s₁.itable ip _ ip = _
      rw [update_self]

/-! ### `filewrite` -/

/-- The inode as `ilock` leaves it in the table. -/
def inodeOf (sb : Superblock) (s : State) (ip : ℕ) : Dinode :=
  if (s.itable ip).valid then s.din ip
  else Dinode.read (s.disk (sb.iblock (s.inum ip))) (s.inum ip % ipb)

/-- The inode of an open file, with a block for every byte below its size. -/
structure InodeFile (sb : Superblock) (s : State) (ip : ℕ) : Prop where
  ref : 0 < (s.itable ip).ref
  type : (inodeOf sb s ip).type ≠ 0
  covered : ∀ bn, bn * bsize < (inodeOf sb s ip).size →
    refs s.disk (fun _ => inodeOf sb s ip) (blockRef (s.inum ip) bn) ≠ 0

/-- The blocks have addresses, and the indirect block has one if there are blocks beyond the direct
ones. -/
theorem addressed_of_covered {x : Dinode} {disk : Disk} {inum : ℕ}
    (h : ∀ bn, bn * bsize < x.size → refs disk (fun _ => x) (blockRef inum bn) ≠ 0) :
    Addressed x x.size := by
  intro bn hbn
  have hne := h bn hbn
  unfold blockRef at hne
  split_ifs at hne with hlt
  · rwa [Nat.min_eq_left (Nat.le_of_lt hlt)]
  · rw [Nat.min_eq_right (by omega)]
    intro h0
    exact hne (refs_entry_of_zero h0)

theorem size_le_of_covered {x : Dinode} {disk : Disk} {inum : ℕ}
    (h : ∀ bn, bn * bsize < x.size → refs disk (fun _ => x) (blockRef inum bn) ≠ 0) :
    x.size ≤ maxfile * bsize := by
  by_contra hgt
  exact absurd (lt_maxfile_of_refs (h maxfile (by omega))) (Nat.lt_irrefl _)

/-- What the operations of `filewrite` need of the inode before it is locked. -/
structure Ready (sb : Superblock) (s : State) (ip : ℕ) : Prop where
  ref : 0 < (s.itable ip).ref
  type : (s.itable ip).valid = false → (inodeOf sb s ip).type ≠ 0
  addressed : Addressed (inodeOf sb s ip) (inodeOf sb s ip).size
  size_le : (inodeOf sb s ip).size ≤ maxfile * bsize

theorem InodeFile.ready (h : InodeFile sb s ip) : Ready sb s ip :=
  ⟨h.ref, fun _ => h.type, addressed_of_covered h.covered, size_le_of_covered h.covered⟩

theorem Held.ready (h : Held s ip) : Ready sb s ip := by
  have hinode : inodeOf sb s ip = s.din ip := if_pos h.valid
  refine ⟨h.ref, fun hvalid => ?_, ?_, ?_⟩
  · rw [h.valid] at hvalid
    cases hvalid
  · rw [hinode]
    exact h.addressed
  · rw [hinode]
    exact h.size_le

/-- `ilock` reads the inode unless it is in the table already. -/
theorem ilock_held (h : Ready sb s ip) : Ends (fun _ => False) (lift (ilock sb ip)) s fun _ t s' =>
    recorded t = [] ∧ Held s' ip := by
  have href := h.ref
  have haddr := h.addressed
  have hsize := h.size_le
  unfold lift ilock
  simp only [ends_filterTrace, ends_bind, ends_get]
  rw [if_neg (by omega)]
  split_ifs with hvalid
  · have hinode : inodeOf sb s ip = s.din ip := if_pos hvalid
    rw [hinode] at haddr hsize
    exact ends_pure.2 ⟨rfl, href, hvalid, haddr, hsize⟩
  · have hinode : inodeOf sb s ip = Dinode.read (s.disk (sb.iblock (s.inum ip)))
        (s.inum ip % ipb) :=
      if_neg hvalid
    have htype := h.type (by simpa using hvalid)
    rw [hinode] at haddr hsize htype
    simp only [iload, ends_bind, ends_get, ends_modify]
    rw [if_neg htype, ends_pure]
    refine ⟨rfl, ?_, ?_, ?_, ?_⟩
    · simpa using href
    · simp
    · simpa [State.din] using haddr
    · simpa [State.din] using hsize

/-- One operation of `filewrite`. -/
theorem writeChunk_recorded (h : Ready sb s ip) (hn : n ≤ maxChunk) :
    Ends (fun _ => False) (writeChunk sb ip user src i off n) s fun _ t s' =>
      (recorded t).toFinset.card ≤ Log.maxopblocks ∧ Ready sb s' ip := by
  rw [writeChunk, ends_bind]
  refine (ilock_held h).post fun _ t₁ s₁ ⟨ht₁, h₁⟩ => ?_
  refine (writei_recorded h₁ hn).post fun _ t₂ s₂ ⟨hcard, h₂⟩ => ?_
  rw [recorded_append, ht₁]
  exact ⟨hcard, h₂.ready⟩

/-- The loop of `filewrite`, with all its operations. -/
theorem filewriteLoop_recorded {n : ℤ} {fuel : ℕ} (h : Ready sb s ip)
    (hfuel : (n - i).toNat < fuel) :
    Ends (fun _ => False) (filewriteLoop sb ip user src n fuel i off) s fun _ t _ =>
      ∀ u ∈ t, (recorded u).toFinset.card ≤ Log.maxopblocks := by
  induction fuel generalizing i off s with
  | zero => omega
  | succ fuel ih =>
    rw [filewriteLoop]
    split_ifs with hlt
    · have hchunk : 0 < maxChunk := by decide
      rw [ends_bind, ends_grouped]
      refine (writeChunk_recorded h (Nat.min_le_right _ _)).post fun r u s₁ ⟨hcard, h₁⟩ => ?_
      dsimp only
      rcases eq_or_ne r (min (n - i).toNat maxChunk : ℕ) with hr | hr
      · rw [if_neg (not_not_intro hr)]
        refine (ih h₁ (by omega)).post fun _ t _ ht => ?_
        exact List.forall_mem_append.2 ⟨List.forall_mem_singleton.2 hcard, ht⟩
      · rw [if_pos hr, ends_pure, List.append_nil]
        exact List.forall_mem_singleton.2 hcard
    · rw [ends_pure]
      simp

end Count

end Logged

open Logged

/-- **Each operation of `filewrite` stays within its reservation**: whatever the superblock and the
free map are, wherever in the file and however many bytes are written, and whatever part of the
bytes can be read from user memory, the blocks recorded between `begin_op` and `end_op` are at most
`MAXOPBLOCKS`. -/
theorem filewrite_within_reservation (sb : Superblock) (s : State) (f : File) (user : Option ℕ)
    (src : ℕ → Byte) (n : ℤ) (hfile : InodeFile sb s f.ip) :
    Ends (fun _ => False) (filewrite sb f user src n) s fun _ t _ =>
      ∀ operation ∈ t, (recorded operation).toFinset.card ≤ Log.maxopblocks := by
  unfold filewrite
  split_ifs with hwritable
  · exact ends_pure.2 (by simp)
  · rw [ends_bind]
    refine (filewriteLoop_recorded hfile.ready (by omega)).post fun r t s' ht => ?_
    rw [ends_pure, List.append_nil]
    exact ht

/-- Five blocks of bytes into the empty file of the small disk. -/
theorem filewrite_within_reservation_tiny : InodeFile tinySb (tinyState tFile) 0 ∧
    Ends (fun _ => False) (filewrite tinySb ⟨true, 0, 0⟩ none (fun _ => 7) 5120) (tinyState tFile)
      fun _ t _ => ∀ operation ∈ t, (recorded operation).toFinset.card ≤ Log.maxopblocks := by
  have hfile : InodeFile tinySb (tinyState tFile) 0 := by
    have hinode : inodeOf tinySb (tinyState tFile) 0 = Dinode.zero.withType tFile := rfl
    refine ⟨Nat.one_pos, ?_, fun bn hbn => ?_⟩
    · rw [hinode]
      decide
    · rw [hinode] at hbn
      exact absurd hbn (Nat.not_lt_zero _)
  exact ⟨hfile, filewrite_within_reservation tinySb (tinyState tFile) ⟨true, 0, 0⟩ none
    (fun _ => 7) 5120 hfile⟩

end RaidSystem.Fs
