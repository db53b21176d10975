/-
**A file is an array of bytes.**

`readi` and `writei` cut a range of bytes at the borders of blocks, and look up each block with
`bmap`.  Seen from outside, a file is a list of bytes: a write overwrites a part of it, and may make
it longer, and a read returns a part of it.

Main definitions:

* `List.overwrite` — the array after a write;
* `State.byteAt` — byte number `k` of a file, in its block;
* `contents` — the bytes of a file;
* `fileOf` — the array after a sequence of writes, from what they returned.

Main results:

* `readLoop_ends`, `writeLoop_ends` — what the loops do;
* `Logged.ends_writei` — a call of `writei` that is not refused is its loop, and then the inode is
  stored;
* `readi_runs`, `writei_ends` — reading returns a part of the contents, writing overwrites one;
* `file_is_array` — **after any sequence of writes, a file is the array that the writes describe**.
-/

import RaidSystem.BlockMap
import RaidSystem.Reach

set_option autoImplicit false

/-! ### Overwriting a part of a list -/

namespace List

variable {α : Type} {l data : List α} {off k : ℕ}

/-- The elements from `off` on are replaced by `data`, and the list is made longer if need be. -/
def overwrite (l : List α) (off : ℕ) (data : List α) : List α :=
  l.take off ++ data ++ l.drop (off + data.length)

theorem getElem?_overwrite (h : off ≤ l.length) : (l.overwrite off data)[k]? =
    if k < off then l[k]? else if k < off + data.length then data[k - off]? else l[k]? := by
  have hlen : (l.take off).length = off := by
    rw [length_take]
    omega
  rw [overwrite, append_assoc]
  split_ifs with h₁ h₂
  · rw [getElem?_append_left (by omega), getElem?_take_of_lt h₁]
  · rw [getElem?_append_right (by omega), hlen, getElem?_append_left (by omega)]
  · rw [getElem?_append_right (by omega), hlen, getElem?_append_right (by omega), getElem?_drop,
      show off + data.length + (k - off - data.length) = k by omega]

end List

namespace RaidSystem.Fs

open Prog Function

/-! ### Bytes and blocks -/

section Bytes

variable {sb : Superblock} {s s' : State} {ip k off n m tot : ℕ} {t : List Event}

/-- There is a block for byte number `k` of the file. -/
def State.Has (sb : Superblock) (s : State) (ip k : ℕ) : Prop :=
  s.refs sb ip (blockRef (s.inum ip) (k / bsize)) ≠ 0

/-- Byte number `k` of the file. -/
def State.byteAt (sb : Superblock) (s : State) (ip k : ℕ) : Byte :=
  (s.disk (s.refs sb ip (blockRef (s.inum ip) (k / bsize)))).get (k % bsize)

/-- The bytes of the file. -/
def contents (sb : Superblock) (s : State) (ip : ℕ) : List Byte :=
  (List.range (s.din ip).size).map (s.byteAt sb ip)

@[simp] theorem length_contents : (contents sb s ip).length = (s.din ip).size := by simp [contents]

theorem getElem?_contents (h : k < (s.din ip).size) :
    (contents sb s ip)[k]? = some (s.byteAt sb ip k) := by
  simp [contents, h]

theorem Grown.has {P : BlockRef → Prop} (h : Grown sb ip P s t s') (hk : s.Has sb ip k) :
    s'.Has sb ip k := by
  rw [State.Has, h.inum, h.kept _ hk]
  exact hk

/-- The bytes of a file that has grown are those that there were. -/
theorem Grown.byteAt (h : Grown sb ip BlockRef.IsData s t s') (hk : s.Has sb ip k) :
    s'.byteAt sb ip k = s.byteAt sb ip k := by
  rw [State.byteAt, h.inum, h.kept _ hk, h.data _ blockRef_isData hk]
  rfl

theorem Consistent.has (h : Consistent sb s) (hl : Locked s ip) (hk : k < (s.din ip).size) :
    s.Has sb ip k := by
  refine h.covered_opened hl ?_
  have hdiv := Nat.div_mul_le_self k bsize
  omega

/-- No file is larger than the largest one. -/
theorem Consistent.size_le (h : Consistent sb s) (hl : Locked s ip) :
    (s.din ip).size ≤ maxfile * bsize := by
  rcases Nat.eq_zero_or_pos (s.din ip).size with h0 | hpos
  · omega
  · have hlast : s.Has sb ip ((s.din ip).size - 1) := h.has hl (by omega)
    have hlt := lt_maxfile_of_refs hlast
    have hmul := (Nat.div_lt_iff_lt_mul (by decide : 0 < bsize)).1 hlt
    omega

/-- The bytes of one block from `off` on. -/
theorem div_mod_add (hk : k < bsize - off % bsize) :
    (off + k) / bsize = off / bsize ∧ (off + k) % bsize = off % bsize + k := by
  simp only [bsize] at hk ⊢
  omega

theorem slice_eq (hm : m ≤ bsize - off % bsize) :
    slice (s.disk (s.refs sb ip (blockRef (s.inum ip) (off / bsize)))) (off % bsize) m =
      (List.range m).map fun i => s.byteAt sb ip (off + i) := by
  refine List.map_congr_left fun i hi => ?_
  obtain ⟨hdiv, hmod⟩ :=
    div_mod_add (by have := List.mem_range.1 hi; omega : i < bsize - off % bsize)
  rw [State.byteAt, hdiv, hmod]

theorem chunk_pos (h : tot < n) : 0 < chunk n tot off := by
  have hmod : off % bsize < bsize := Nat.mod_lt _ (by decide)
  rw [chunk]
  omega

theorem chunk_le : chunk n tot off ≤ bsize - off % bsize := Nat.min_le_right _ _

theorem chunk_le_rest : chunk n tot off ≤ n - tot := Nat.min_le_left _ _

theorem copied_le {user : Option ℕ} : copied user tot m ≤ m := by
  cases user with
  | none => exact Nat.le_refl _
  | some k => exact Nat.min_le_left _ _

end Bytes

/-! ### Reading -/

section Reading

variable {sb : Superblock} {s : State} {ip off n tot fuel : ℕ} {user : Option ℕ} {dst : List Byte}

/-- The loop of `readi`, in a part of the file for which there are blocks. -/
theorem readLoop_ends (hfuel : n - tot < fuel) (htot : tot ≤ n)
    (hhas : ∀ k, off ≤ k → k < off + (n - tot) → s.Has sb ip k) :
    Ends (fun _ => False) (readLoop sb ip user n fuel tot off dst) s fun r t s' =>
      t = [] ∧ s' = s ∧ (user = none →
        r = ((n : ℤ), dst ++ (List.range (n - tot)).map fun i => s.byteAt sb ip (off + i))) := by
  induction fuel generalizing tot off dst with
  | zero => omega
  | succ fuel ih =>
    rw [readLoop]
    split_ifs with hlt
    · have hfirst : s.refs sb ip (blockRef (s.inum ip) (off / bsize)) ≠ 0 :=
        hhas off (Nat.le_refl _) (by omega)
      have hpos : 0 < chunk n tot off := chunk_pos hlt
      have hrest : chunk n tot off ≤ n - tot := chunk_le_rest
      rw [ends_bind, (bmap_of_refs hfirst).ends_iff, if_neg hfirst, ends_bind, ends_get]
      dsimp only
      split_ifs with hcopied
      · rw [ends_pure]
        refine ⟨rfl, rfl, ?_⟩
        rintro rfl
        exact absurd hcopied (Nat.lt_irrefl _)
      · refine Ends.post (ih (by omega) (by omega) fun k h₁ h₂ => hhas k (by omega) (by omega)) ?_
        rintro r t s' ⟨rfl, rfl, hr⟩
        refine ⟨rfl, rfl, ?_⟩
        rintro rfl
        rw [hr rfl, copied, slice_eq chunk_le, List.append_assoc]
        have hsplit : n - tot = chunk n tot off + (n - (tot + chunk n tot off)) := by omega
        rw [hsplit, List.range_add, List.map_append, List.map_map]
        simp only [comp_def, Nat.add_assoc]
    · rw [ends_pure]
      obtain rfl : tot = n := by omega
      refine ⟨rfl, rfl, ?_⟩
      rintro -
      simp

/-- `readi` changes nothing. -/
theorem readi_ends (h : Consistent sb s) (hl : Locked s ip) (hn : n < 2 ^ 32) :
    Ends (fun _ => False) (readi sb ip user off n) s fun _ t s' => t = [] ∧ s' = s := by
  have hsize := (h.opened hl).fits.size
  unfold readi
  simp only [ends_bind, ends_get, List.nil_append]
  split_ifs with hbad hlong
  · simp
  · refine (readLoop_ends (by omega) (by omega) fun k h₁ h₂ => ?_).post
      fun _ _ _ hr => ⟨hr.1, hr.2.1⟩
    exact h.has hl (by omega)
  · refine (readLoop_ends (by omega) (by omega) fun k h₁ h₂ => ?_).post
      fun _ _ _ hr => ⟨hr.1, hr.2.1⟩
    exact h.has hl (by omega)

/-- `readi` from a file that has a block for every byte. -/
theorem readi_runs_of_has (hhas : ∀ k < (s.din ip).size, s.Has sb ip k)
    (hoff : off ≤ (s.din ip).size) (hn : off + n < 2 ^ 32) :
    Runs (readi sb ip none off n) s
      ((min n ((s.din ip).size - off) : ℕ), ((contents sb s ip).drop off).take n) [] s := by
  have hread : Ends (fun _ => False) (readi sb ip none off n) s fun r t s' => t = [] ∧ s' = s ∧
      r = (((min n ((s.din ip).size - off) : ℕ) : ℤ),
        (List.range (min n ((s.din ip).size - off))).map fun i => s.byteAt sb ip (off + i)) := by
    unfold readi
    simp only [ends_bind, ends_get, List.nil_append, Nat.mod_eq_of_lt hn]
    split_ifs with hbad hlong
    · omega
    · rw [Nat.min_eq_right (by omega)]
      refine (readLoop_ends (by omega) (by omega) fun k h₁ h₂ => ?_).post fun _ _ _ hr => ?_
      · exact hhas k (by omega)
      · exact ⟨hr.1, hr.2.1, hr.2.2 rfl⟩
    · rw [Nat.min_eq_left (by omega)]
      refine (readLoop_ends (by omega) (by omega) fun k h₁ h₂ => ?_).post fun _ _ _ hr => ?_
      · exact hhas k (by omega)
      · exact ⟨hr.1, hr.2.1, hr.2.2 rfl⟩
  obtain ⟨r, t, s', hrun, rfl, rfl, rfl⟩ := hread.exists_runs
  have hbytes : (List.range (min n ((s'.din ip).size - off))).map
      (fun i => s'.byteAt sb ip (off + i)) = ((contents sb s' ip).drop off).take n := by
    refine List.ext_getElem (by simp) fun i h₁ h₂ => ?_
    simp [contents]
  rwa [← hbytes]

/-- **`readi` returns a part of the contents.** -/
theorem readi_runs (h : Consistent sb s) (hl : Locked s ip) (hoff : off ≤ (s.din ip).size)
    (hn : off + n < 2 ^ 32) :
    Runs (readi sb ip none off n) s
      ((min n ((s.din ip).size - off) : ℕ), ((contents sb s ip).drop off).take n) [] s :=
  readi_runs_of_has (fun _ => h.has hl) hoff hn

end Reading

/-! ### Writing -/

section Writing

variable {sb : Superblock} {s s₁ s' : State} {ip off n tot fuel k : ℕ} {user : Option ℕ}
  {src : ℕ → Byte} {t : List Event}

/-- The loop of `writei` has come to `r.1` bytes and the offset `r.2`, from `tot` bytes and the
offset `off`. -/
structure Written (sb : Superblock) (ip : ℕ) (user : Option ℕ) (src : ℕ → Byte) (n tot off : ℕ)
    (s : State) (r : ℕ × ℕ) (t : List Event) (s' : State) : Prop where
  opened : Open sb s' ip
  grown : Grown sb ip (fun r => r.IsData ∧ r.inum ≠ s.inum ip) s t s'
  tot_le : tot ≤ r.1
  le : r.1 ≤ n
  off_eq : r.2 = off + (r.1 - tot)
  has : ∀ k, off ≤ k → k < r.2 → s'.Has sb ip k
  new : ∀ k, off ≤ k → k < r.2 → s'.byteAt sb ip k = src (tot + (k - off))
  before : ∀ k, s.Has sb ip k → k < off → s'.byteAt sb ip k = s.byteAt sb ip k
  beyond : user = none → ∀ k, s.Has sb ip k → r.2 ≤ k → s'.byteAt sb ip k = s.byteAt sb ip k
  full : user = none → r.1 < n → .outOfBlocks ∈ t

/-- Nothing was copied, and the file may have got new blocks. -/
theorem Written.of_grown (h : Open sb s' ip) (hg : Grown sb ip BlockRef.IsData s t s')
    (hle : tot ≤ n) (hfull : tot < n → .outOfBlocks ∈ t) :
    Written sb ip user src n tot off s (tot, off) t s' where
  opened := h
  grown := hg.mono fun _ hr => hr.1
  tot_le := Nat.le_refl _
  le := hle
  off_eq := by simp
  has := fun k h₁ h₂ => absurd h₁ (Nat.not_le.2 h₂)
  new := fun k h₁ h₂ => absurd h₁ (Nat.not_le.2 h₂)
  before := fun k hk _ => hg.byteAt hk
  beyond := fun _ k hk _ => hg.byteAt hk
  full := fun _ => hfull

/-- The bytes after `c` bytes of the block at `off` were overwritten. -/
theorem byteAt_setData {c : ℕ} {d : ℕ → Byte} (h : Open sb s ip) (hc : c ≤ bsize - off % bsize)
    (hk : s.Has sb ip k)
    (hs₁ : s₁ = s.setBlock (s.refs sb ip (blockRef (s.inum ip) (off / bsize)))
      ((s.disk (s.refs sb ip (blockRef (s.inum ip) (off / bsize)))).splice (off % bsize) c d))
    (hrefs : s₁.refs sb ip = s.refs sb ip) :
    s₁.byteAt sb ip k = if off ≤ k ∧ k < off + c then d (k - off) else s.byteAt sb ip k := by
  have hinum : s₁.inum ip = s.inum ip := by rw [hs₁]; rfl
  have hmod : k % bsize < bsize := Nat.mod_lt _ (by decide)
  rw [State.byteAt, hrefs, hinum]
  rcases eq_or_ne (k / bsize) (off / bsize) with hdiv | hdiv
  · -- a byte of the same block
    have hsame : s₁.disk (s.refs sb ip (blockRef (s.inum ip) (off / bsize))) =
        (s.disk (s.refs sb ip (blockRef (s.inum ip) (off / bsize)))).splice (off % bsize) c d := by
      rw [hs₁, State.setBlock_disk, update_self]
    rw [hdiv, hsame, Bytes.get_splice hmod]
    have hiff : off % bsize ≤ k % bsize ∧ k % bsize < off % bsize + c ↔ off ≤ k ∧ k < off + c := by
      simp only [bsize] at *
      omega
    have hsub : k % bsize - off % bsize = k - off := by
      simp only [bsize] at *
      omega
    rw [if_congr hiff rfl rfl, hsub, State.byteAt, hdiv]
  · have hne : s.refs sb ip (blockRef (s.inum ip) (k / bsize)) ≠
        s.refs sb ip (blockRef (s.inum ip) (off / bsize)) := by
      intro heq
      exact hdiv (blockRef_inj (h.owned.unique _ _ hk heq))
    have hout : ¬ (off ≤ k ∧ k < off + c) := by
      simp only [bsize] at *
      omega
    rw [if_neg hout, hs₁, State.setBlock_disk, update_of_ne hne]
    rfl

/-- The block at `off` was looked up, and `c` bytes were copied into it. -/
theorem Written.of_block {c : ℕ} (h : Open sb s₁ ip) (hg : Grown sb ip BlockRef.IsData s t s₁)
    (hoff : s₁.Has sb ip off) (hc : c ≤ bsize - off % bsize)
    (hs' : s' = s₁.setBlock (s₁.refs sb ip (blockRef (s₁.inum ip) (off / bsize)))
      ((s₁.disk (s₁.refs sb ip (blockRef (s₁.inum ip) (off / bsize)))).splice (off % bsize) c
        fun i => src (tot + i)))
    (hsb : sb.Sound) (hle : tot ≤ n) (hm : user = none → n = tot + c) (hn : n ≤ tot + c ∨ n = tot) :
    Written sb ip user src n tot off s (n, off + (n - tot)) t s' := by
  obtain ⟨h', hg', hrefs⟩ := h.setData hsb blockRef_isData blockRef_inum hoff
    (d := (s₁.disk (s₁.refs sb ip (blockRef (s₁.inum ip) (off / bsize)))).splice (off % bsize) c
      fun i => src (tot + i))
  rw [← hs'] at h' hg' hrefs
  rw [hg.inum] at hg'
  have hgrown : Grown sb ip (fun r => r.IsData ∧ r.inum ≠ s.inum ip) s t s' := by
    simpa using (hg.mono fun _ hr => hr.1).trans hg'
  -- the bytes of the block from `off` on
  have hhas : ∀ k, off ≤ k → k < off + c → s₁.Has sb ip k := by
    intro k h₁ h₂
    have hdiv := (div_mod_add (by omega : k - off < bsize - off % bsize)).1
    rw [show off + (k - off) = k by omega] at hdiv
    rw [State.Has, hdiv]
    exact hoff
  have hbyte : ∀ k, s₁.Has sb ip k → s'.byteAt sb ip k =
      if off ≤ k ∧ k < off + c then src (tot + (k - off)) else s₁.byteAt sb ip k :=
    fun k hk => byteAt_setData h hc hk hs' hrefs
  refine ⟨h', hgrown, hle, Nat.le_refl _, rfl, ?_, ?_, ?_, ?_, fun _ h =>
    absurd h (Nat.lt_irrefl _)⟩
  · intro k h₁ h₂
    exact hg'.has (hhas k h₁ (by omega))
  · intro k h₁ h₂
    rw [hbyte k (hhas k h₁ (by omega)), if_pos ⟨h₁, by omega⟩]
  · intro k hk hlt
    rw [hbyte k (hg.has hk), if_neg (by omega), hg.byteAt hk]
  · intro huser k hk hle'
    have := hm huser
    dsimp only at hle'
    rw [hbyte k (hg.has hk), if_neg (by omega), hg.byteAt hk]

/-- The loop goes on. -/
theorem Written.trans {n' : ℕ} {r r' : ℕ × ℕ} {t' : List Event}
    (h : Written sb ip user src n tot off s r t s₁)
    (h' : Written sb ip user src n' r.1 r.2 s₁ r' t' s') :
    Written sb ip user src n' tot off s r' (t ++ t') s' := by
  obtain ⟨tot₁, off₁⟩ := r
  have hle := h.tot_le
  have hle' := h'.tot_le
  have heq := h.off_eq
  have heq' := h'.off_eq
  have hg' := h'.grown
  rw [h.grown.inum] at hg'
  dsimp only at hle hle' heq heq' h'
  refine ⟨h'.opened, h.grown.trans hg', by omega, h'.le, by omega, ?_, ?_, ?_, ?_, ?_⟩
  · intro k h₁ h₂
    rcases Nat.lt_or_ge k off₁ with hlt | hge
    · exact hg'.has (h.has k h₁ hlt)
    · exact h'.has k hge h₂
  · intro k h₁ h₂
    rcases Nat.lt_or_ge k off₁ with hlt | hge
    · rw [h'.before k (h.has k h₁ hlt) hlt, h.new k h₁ hlt]
    · rw [h'.new k hge h₂]
      congr 1
      omega
  · intro k hk hlt
    rw [h'.before k (h.grown.has hk) (by omega), h.before k hk hlt]
  · intro huser k hk hge
    rw [h'.beyond huser k (h.grown.has hk) hge, h.beyond huser k hk (by omega)]
  · intro huser hlt
    exact List.mem_append_right _ (h'.full huser hlt)

/-- **The loop of `writei`.** -/
theorem writeLoop_ends (hsb : sb.Sound) (h : Open sb s ip) (hfuel : n - tot < fuel) (htot : tot ≤ n)
    (hmax : off + (n - tot) ≤ maxfile * bsize) :
    Ends (fun _ => False) (writeLoop sb ip user src n fuel tot off) s
      (Written sb ip user src n tot off s) := by
  induction fuel generalizing tot off s with
  | zero => omega
  | succ fuel ih =>
    rw [writeLoop, Logged.writeLoop]
    simp only [unlogged_ite, unlogged_bind, unlogged_pure, unlogged_modify, Logged.logWrite,
      unlogged_logWrite, bind_of_pure]
    by_cases hlt : tot < n
    · rw [if_pos hlt, ends_bind]
      have hbn : off / bsize < maxfile := Nat.div_lt_of_lt_mul (by rw [Nat.mul_comm]; omega)
      have hpos : 0 < chunk n tot off := chunk_pos hlt
      have hrest : chunk n tot off ≤ n - tot := chunk_le_rest
      have hblock : chunk n tot off ≤ bsize - off % bsize := chunk_le
      have hcopied : copied user tot (chunk n tot off) ≤ chunk n tot off := copied_le
      refine (bmap_ends hsb h hbn).post fun a t₁ s₁ h₁ => ?_
      rw [← h₁.grown.inum] at h₁
      by_cases ha : a = 0
      · rw [if_pos ha, ends_pure, List.append_nil]
        exact .of_grown h₁.opened h₁.grown htot fun _ => h₁.full.1 ha
      · obtain rfl := h₁.block
        rw [if_neg ha, ends_bind, ends_modify]
        by_cases hshort : copied user tot (chunk n tot off) < chunk n tot off
        · -- the address of the user is not mapped
          rw [if_pos hshort, ends_pure]
          have huser : user ≠ none := by
            rintro rfl
            exact absurd hshort (Nat.lt_irrefl _)
          have hwritten : Written sb ip user src tot tot off s _ t₁ _ :=
            .of_block h₁.opened h₁.grown ha (Nat.le_trans hcopied hblock) rfl hsb (Nat.le_refl _)
              (fun hnone => absurd hnone huser) (.inr rfl)
          rw [Nat.sub_self, Nat.add_zero] at hwritten
          rw [List.append_nil, List.append_nil]
          exact { hwritten with
            le := htot
            full := fun hnone => absurd hnone huser }
        · have hall : copied user tot (chunk n tot off) = chunk n tot off := by omega
          have hwritten : Written sb ip user src (tot + chunk n tot off) tot off s _ t₁ _ :=
            .of_block h₁.opened h₁.grown ha hblock rfl hsb (by omega) (fun _ => rfl)
              (.inl (by omega))
          rw [Nat.add_sub_cancel_left] at hwritten
          rw [if_neg hshort, hall]
          refine (ih hwritten.opened (by omega) (by omega) (by omega)).post fun r t₂ s₂ h₂ => ?_
          exact hwritten.trans h₂
    · obtain rfl : tot = n := by omega
      rw [if_neg hlt, ends_pure]
      exact .of_grown h .refl (Nat.le_refl _) fun h => absurd h (Nat.lt_irrefl _)

/-- `writei` has written `tot` of the `n` bytes. -/
structure Wrote (sb : Superblock) (ip : ℕ) (user : Option ℕ) (src : ℕ → Byte) (off n : ℕ)
    (s : State) (tot : ℕ) (t : List Event) (s' : State) : Prop where
  consistent : Consistent sb s'
  itable : s'.itable = update s.itable ip ((s.itable ip).withDin (s'.din ip))
  type : (s'.din ip).type = (s.din ip).type
  size : (s'.din ip).size = max (s.din ip).size (off + tot)
  le : tot ≤ n
  full : user = none → tot < n → .outOfBlocks ∈ t
  contents : user = none →
    contents sb s' ip = (contents sb s ip).overwrite off ((List.range tot).map src)
  fresh : ∀ b, .alloc b ∈ t → ∀ r, refs s.disk (sb.inode s.disk) r ≠ b

theorem Wrote.entry (h : Wrote sb ip user src off n s tot t s') :
    s'.itable ip = (s.itable ip).withDin (s'.din ip) :=
  (congrFun h.itable ip).trans (update_self ..)

theorem Wrote.locked (h : Wrote sb ip user src off n s tot t s') (hl : Locked s ip) :
    Locked s' ip := by
  refine ⟨?_, ?_⟩
  · rw [h.entry]
    exact hl.ref
  · rw [h.entry]
    exact hl.valid

/-- The contents from the single bytes. -/
theorem contents_eq_overwrite (hoff : off ≤ (s.din ip).size)
    (hsize : (s'.din ip).size = max (s.din ip).size (off + tot))
    (hbefore : ∀ k < off, s'.byteAt sb ip k = s.byteAt sb ip k)
    (hnew : ∀ k, off ≤ k → k < off + tot → s'.byteAt sb ip k = src (k - off))
    (hbeyond : ∀ k, off + tot ≤ k → k < (s.din ip).size → s'.byteAt sb ip k = s.byteAt sb ip k) :
    contents sb s' ip = (contents sb s ip).overwrite off ((List.range tot).map src) := by
  refine List.ext_getElem? fun k => ?_
  rw [List.getElem?_overwrite (by simpa using hoff), List.length_map, List.length_range]
  split_ifs with h₁ h₂
  · rw [getElem?_contents (by omega), getElem?_contents (by omega), hbefore k h₁]
  · rw [getElem?_contents (by omega), hnew k (by omega) h₂, List.getElem?_map,
      List.getElem?_range (by omega)]
    rfl
  · rcases Nat.lt_or_ge k (s.din ip).size with hk | hk
    · rw [getElem?_contents (by omega), getElem?_contents hk, hbeyond k (by omega) hk]
    · rw [List.getElem?_eq_none (by rw [length_contents]; omega),
        List.getElem?_eq_none (by rwa [length_contents])]

section

variable (hsb : sb.Sound) (h : Consistent sb s) (hl : Locked s ip) (hoff : off ≤ (s.din ip).size)
  (hmax : off + n ≤ maxfile * bsize)

include hsb h hl hoff hmax

/-- The end of `writei`: the size is set, and the inode is stored. -/
theorem Written.finish {r : ℕ × ℕ} (hw : Written sb ip user src n 0 off s r t s₁)
    (hs' : s' = (s₁.setDin ip ((s₁.din ip).withSize (max (s.din ip).size r.2))).setDinode sb
      (s₁.inum ip) ((s₁.din ip).withSize (max (s.din ip).size r.2))) :
    Wrote sb ip user src off n s r.1 t s' := by
  have hr₂ : r.2 = off + r.1 := by rw [hw.off_eq, Nat.sub_zero]
  have hle := hw.le
  have hg := hw.grown
  have hsize : max (s.din ip).size r.2 < 2 ^ 32 := by
    have := (h.opened hl).fits.size
    simp only [maxfile, ndirect, nindirect, bsize] at hmax
    omega
  obtain ⟨h₂, hrefs₂⟩ := hw.opened.setDin (hw.opened.fits.withSize hsize) rfl
  -- the state before `iupdate`
  obtain ⟨s₂, hs₂⟩ : ∃ s₂, s₂ = s₁.setDin ip ((s₁.din ip).withSize (max (s.din ip).size r.2)) :=
    ⟨_, rfl⟩
  have hdin₂ : s₂.din ip = (s₁.din ip).withSize (max (s.din ip).size r.2) := by
    simp [hs₂, State.din]
  have hinum₂ : s₂.inum ip = s₁.inum ip := by simp [hs₂, State.inum]
  have hitable₂ : s₂.itable = update s.itable ip ((s.itable ip).withDin (s₂.din ip)) := by
    rw [hdin₂, hs₂, State.setDin_itable, hg.itable, update_idem, update_self]
    rfl
  rw [← hs₂] at h₂ hrefs₂
  rw [← hs₂, ← hdin₂, ← hinum₂] at hs'
  have hitable' : s'.itable = s₂.itable := by rw [hs']; rfl
  have hdin' : s'.din ip = s₂.din ip := by rw [State.din, hitable']
  have htype : (s₂.din ip).type = (s.din ip).type := by
    rw [hdin₂, State.din, hg.entry]
    rfl
  -- every byte below the size has its block
  have hhas : ∀ k, k < (s₂.din ip).size → s₁.Has sb ip k := by
    intro k hk
    rw [hdin₂, Dinode.withSize_size] at hk
    rcases Nat.lt_or_ge k (s.din ip).size with hlt | hge
    · exact hg.has (h.has hl hlt)
    · exact hw.has k (by omega) (by omega)
  have hconsistent : Consistent sb s' := by
    refine h.closed hsb hl h₂ (hinum₂.trans hg.inum) ?_ ?_ ?_ (by rw [hs']) ?_ ?_ ?_
    · rw [hs₂]
      exact hg.inode
    · intro r hr
      rw [hrefs₂, hg.others r hr]
    · intro bn hbn
      have := hhas _ hbn
      rwa [State.Has, hg.inum, Nat.mul_div_cancel _ (by decide), ← hrefs₂] at this
    · intro ip' hip'
      rw [hitable', hitable₂, update_of_ne hip']
    · rw [State.inum, hitable', hitable₂, update_self]
      rfl
    · rintro - -
      rw [htype]
      exact ⟨hdin', (h.valid ip hl.ref hl.valid).2.2⟩
  have hl' : Locked s' ip := by
    refine ⟨?_, ?_⟩
    · rw [hitable', hitable₂, update_self]
      exact hl.ref
    · rw [hitable', hitable₂, update_self]
      exact hl.valid
  have hbyte : ∀ k, k < (s₂.din ip).size → s'.byteAt sb ip k = s₁.byteAt sb ip k := by
    intro k hk
    have hrefs' : s'.refs sb ip = s₁.refs sb ip := by
      rw [hconsistent.refs_eq hl', hs', h₂.inode_iupdate, h₂.refs_iupdate hsb, hrefs₂]
    have hinum' : s'.inum ip = s₁.inum ip := by
      rw [State.inum, hitable']
      exact hinum₂
    have hin := (hw.opened.owned.inside _ (hhas k hk)).1
    have hlt := hsb.bmapstart_lt h₂.size_pos
    rw [State.byteAt, hrefs', hinum', State.byteAt, hs', h₂.setDinode_of_le hsb (by omega), hs₂,
      State.setDin_disk]
  refine ⟨hconsistent, by rw [hitable', hitable₂, hdin'], by rw [hdin', htype], ?_, hle, hw.full,
    ?_, ?_⟩
  · rw [hdin', hdin₂, Dinode.withSize_size, hr₂]
  · intro huser
    have hsize' : (s'.din ip).size = max (s.din ip).size (off + r.1) := by
      rw [hdin', hdin₂, Dinode.withSize_size, hr₂]
    rw [hdin'] at hsize'
    refine contents_eq_overwrite hoff (hdin' ▸ hsize') ?_ ?_ ?_
    · intro k hk
      rw [hbyte k (by omega), hw.before k (h.has hl (by omega)) hk]
    · intro k h₁ h₂
      rw [hbyte k (by omega), hw.new k h₁ (by omega), Nat.zero_add]
    · intro k h₁ h₂
      rw [hbyte k (by omega), hw.beyond huser k (h.has hl h₂) (by omega)]
  · intro b hb r'
    rw [← h.refs_eq hl]
    exact (hg.fresh b hb).2 r'

omit hsb h hl in
/-- A call of `writei` that is not refused: the loop, and then the inode is stored. -/
theorem Logged.ends_writei {E : Fault → Prop} {Q : ℤ → List LogEvent → State → Prop} :
    Ends E (Logged.writei sb ip user src off n) s Q ↔
      Ends E (Logged.writeLoop sb ip user src n (n + 1) 0 off) s fun r t s₁ =>
        Q r.1 (t ++ [.logWrite (sb.iblock (s₁.inum ip))])
          ((s₁.setSize ip (max (s.din ip).size r.2)).setDinode sb (s₁.inum ip)
            ((s₁.din ip).withSize (max (s.din ip).size r.2))) := by
  have hlt : off + n < 2 ^ 32 := by
    simp only [maxfile, ndirect, nindirect, bsize] at hmax
    omega
  unfold Logged.writei
  simp only [ends_bind, ends_get, Nat.mod_eq_of_lt hlt, List.nil_append]
  rw [if_neg (by omega), if_neg (by omega)]
  simp only [Logged.iupdate, Logged.logWrite, ends_bind, ends_modify, ends_get, ends_emit,
    ends_pure, List.nil_append, List.append_nil, State.din_setDin, State.inum_setDin]

/-- **`writei` overwrites a part of the contents.** -/
theorem writei_ends :
    Ends (fun _ => False) (writei sb ip user src off n) s fun r t s' =>
      ∃ tot : ℕ, r = tot ∧ Wrote sb ip user src off n s tot t s' := by
  rw [writei, ends_unlogged, Logged.ends_writei hoff hmax]
  have hloop : Ends (fun _ => False) (writeLoop sb ip user src n (n + 1) 0 off) s _ :=
    writeLoop_ends hsb (h.opened hl) (by omega) (Nat.zero_le _) hmax
  refine (ends_unlogged.1 hloop).post fun r t s₁ hw => ⟨r.1, rfl, ?_⟩
  rw [List.filterMap_append]
  change Wrote sb ip user src off n s r.1 (_ ++ []) _
  rw [List.append_nil]
  exact hw.finish hsb h hl hoff hmax rfl

end

/-- The bytes of one block are written all at once, and there is no block for them only if there was
none before. -/
theorem writeLoop_block (hn : 0 < n) (hsmall : off % bsize + n ≤ bsize) :
    Ends (fun _ => True) (writeLoop sb ip none src n (n + 1) 0 off) s fun r _ _ =>
      r.1 = n ∨ r.1 = 0 ∧ ¬ s.Has sb ip off := by
  have hchunk : chunk n 0 off = n := by
    rw [chunk, Nat.sub_zero]
    omega
  -- after the bytes were copied the loop ends
  have hend : ∀ s₁ : State, Ends (fun _ => True) (writeLoop sb ip none src n n (0 + n) (off + n)) s₁
      fun r _ _ => r.1 = n ∨ r.1 = 0 ∧ ¬ s.Has sb ip off := by
    intro s₁
    obtain ⟨k, rfl⟩ : ∃ k, n = k + 1 := ⟨n - 1, by omega⟩
    rw [writeLoop, Logged.writeLoop, if_neg (by omega), unlogged_pure, ends_pure]
    exact .inl (Nat.zero_add _)
  rw [writeLoop, Logged.writeLoop, if_pos hn, unlogged_bind, ends_bind]
  simp only [hchunk, copied, Nat.lt_irrefl, if_false, unlogged_ite, unlogged_bind, unlogged_modify,
    unlogged_pure, Logged.logWrite, unlogged_logWrite, bind_of_pure]
  by_cases hhas : s.Has sb ip off
  · rw [← bmap, (bmap_of_refs hhas).ends_iff, if_neg hhas, ends_bind, ends_modify]
    exact hend _
  · refine ends_true.post fun a t₁ s₁ _ => ?_
    split_ifs with ha
    · rw [ends_pure]
      exact .inr ⟨rfl, hhas⟩
    · rw [ends_bind, ends_modify]
      exact hend _

theorem writei_block (hn : 0 < n) (hsmall : off % bsize + n ≤ bsize) :
    Ends (fun _ => True) (writei sb ip none src off n) s fun r _ _ =>
      r = -1 ∨ r = n ∨ r = 0 ∧ ¬ s.Has sb ip off := by
  rw [writei, Logged.writei]
  simp only [unlogged_bind, unlogged_get, unlogged_ite, unlogged_pure, unlogged_modify, ends_bind,
    ends_get]
  split_ifs with h₁ h₂
  · exact ends_pure.2 (.inl rfl)
  · exact ends_pure.2 (.inl rfl)
  · simp only [ends_bind]
    refine (writeLoop_block hn hsmall).post fun r t₁ s₁ hr => ?_
    rw [ends_modify, ← iupdate, ends_iupdate, ends_pure]
    rcases hr with hr | ⟨hr, hhas⟩
    · exact .inr (.inl (by rw [hr]))
    · exact .inr (.inr ⟨by rw [hr]; rfl, hhas⟩)

/-- A call that would leave a hole, wrap around or make the file too large is refused. -/
theorem Logged.writei_refused (hoff : off < 2 ^ 32) (hn : n < 2 ^ 32)
    (hbad : (s.din ip).size < off ∨ 2 ^ 32 ≤ off + n ∨ maxfile * bsize < off + n) :
    Runs (Logged.writei sb ip user src off n) s (-1) [] s := by
  rw [Logged.writei, (get_runs s).silent_iff]
  split_ifs with h₁ h₂
  · exact runs_pure.2 ⟨rfl, rfl, rfl⟩
  · exact runs_pure.2 ⟨rfl, rfl, rfl⟩
  · omega

theorem writei_refused (hoff : off < 2 ^ 32) (hn : n < 2 ^ 32)
    (hbad : (s.din ip).size < off ∨ 2 ^ 32 ≤ off + n ∨ maxfile * bsize < off + n) :
    Runs (writei sb ip user src off n) s (-1) [] s :=
  runs_unlogged (Logged.writei_refused hoff hn hbad)

end Writing

/-! ### Sequences of writes -/

/-- A call of `writei` from kernel memory. -/
structure Write where
  off : ℕ
  n : ℕ
  src : ℕ → Byte
  off_lt : off < 2 ^ 32
  n_lt : n < 2 ^ 32

/-- The call, on the inode in table entry `ip`. -/
def Write.call (sb : Superblock) (ip : ℕ) (w : Write) : Kernel ℤ :=
  writei sb ip none w.src w.off w.n

/-- The array after a sequence of calls, the latest first, and what they returned. -/
def fileOf : List (Write × ℤ) → List Byte
  | [] => []
  | (w, r) :: l =>
    if r < 0 then fileOf l else (fileOf l).overwrite w.off ((List.range r.toNat).map w.src)

/-- The calls see the file as the array `A`. -/
structure IsArray (sb : Superblock) (ip : ℕ) (A : List Byte) (s : State) : Prop where
  size : (s.din ip).size = A.length
  refused : ∀ w : Write, A.length < w.off ∨ 2 ^ 32 ≤ w.off + w.n ∨ maxfile * bsize < w.off + w.n →
    Runs (w.call sb ip) s (-1) [] s
  written : ∀ w : Write, w.off ≤ A.length → w.off + w.n < 2 ^ 32 → w.off + w.n ≤ maxfile * bsize →
    ∃ (tot : ℕ) (t : List Event) (s' : State), Runs (w.call sb ip) s tot t s' ∧ tot ≤ w.n ∧
      (tot = w.n ∨ .outOfBlocks ∈ t) ∧
      contents sb s' ip = A.overwrite w.off ((List.range tot).map w.src)
  read : ∀ off n, off ≤ A.length → off + n < 2 ^ 32 →
    Runs (readi sb ip none off n) s ((min n (A.length - off) : ℕ), (A.drop off).take n) [] s

section Sequence

variable {sb : Superblock} {s s₀ s' : State} {ip : ℕ} {l : List (Write × ℤ)} {w : Write} {r : ℤ}

section

variable (hsb : sb.Sound) (h : Consistent sb s) (hl : Locked s ip)

include hsb h hl

theorem Write.call_ends (hoff : w.off ≤ (s.din ip).size) (hmax : w.off + w.n ≤ maxfile * bsize) :
    Ends (fun _ => False) (w.call sb ip) s fun r t s' =>
      ∃ tot : ℕ, r = tot ∧ Wrote sb ip none w.src w.off w.n s tot t s' :=
  writei_ends hsb h hl hoff hmax

theorem isArray_contents :
    IsArray sb ip (contents sb s ip) s where
  size := length_contents.symm
  refused := by
    intro w hbad
    rw [length_contents] at hbad
    exact writei_refused w.off_lt w.n_lt hbad
  written := by
    intro w hoff _ hmax
    rw [length_contents] at hoff
    obtain ⟨_, t, s', hrun, tot, rfl, hw⟩ := (w.call_ends hsb h hl hoff hmax).exists_runs
    refine ⟨tot, t, s', hrun, hw.le, ?_, hw.contents rfl⟩
    rcases Nat.eq_or_lt_of_le hw.le with heq | hlt
    · exact .inl heq
    · exact .inr (hw.full rfl hlt)
  read := by
    intro off n hoff hn
    rw [length_contents] at hoff ⊢
    exact readi_runs h hl hoff hn

/-- One more call. -/
theorem contents_write (hA : contents sb s ip = fileOf l) (hret : Returns (w.call sb ip) s r s') :
    Consistent sb s' ∧ Locked s' ip ∧ contents sb s' ip = fileOf ((w, r) :: l) := by
  by_cases hbad : (s.din ip).size < w.off ∨ 2 ^ 32 ≤ w.off + w.n ∨ maxfile * bsize < w.off + w.n
  · have hrun : Runs (w.call sb ip) s (-1) [] s := writei_refused w.off_lt w.n_lt hbad
    obtain ⟨rfl, rfl⟩ := hret.unique hrun.returns
    refine ⟨h, hl, ?_⟩
    rw [fileOf, if_pos (by decide), hA]
  · obtain ⟨_, t, s'', hrun, tot, rfl, hw⟩ :=
      (w.call_ends hsb h hl (by omega) (by omega)).exists_runs
    obtain ⟨rfl, rfl⟩ := hret.unique hrun.returns
    refine ⟨hw.consistent, hw.locked hl, ?_⟩
    rw [fileOf, if_neg (by omega), Int.toNat_natCast, ← hA, hw.contents rfl]

end

/-- **A file is an array of bytes**: after any sequence of writes to a file that was empty, the
calls see the array that the writes describe. -/
theorem file_is_array (hsb : sb.Sound) (h₀ : Consistent sb s₀) (hl₀ : Locked s₀ ip)
    (hempty : (s₀.din ip).size = 0)
    (hrun : LogReach (fun w => Write.call sb ip w) (fun _ _ => True) s₀ l s) :
    IsArray sb ip (fileOf l) s := by
  have hI : Consistent sb s ∧ Locked s ip ∧ contents sb s ip = fileOf l := by
    refine hrun.inv (fun l s => Consistent sb s ∧ Locked s ip ∧ contents sb s ip = fileOf l) ?_ ?_
    · refine ⟨h₀, hl₀, ?_⟩
      rw [contents, hempty]
      rfl
    · rintro l s w r s' ⟨h, hl, hA⟩ - hret
      exact contents_write hsb h hl hA hret
  obtain ⟨h, hl, hA⟩ := hI
  rw [← hA]
  exact isArray_contents hsb h hl

end Sequence

/-! ### A small disk -/

section Tiny

/-- One block of inodes, one of the free map, and one of data. -/
def tinySb : Superblock where
  magic := 0
  size := 3
  nblocks := 1
  ninodes := 1
  nlog := 0
  logstart := 0
  inodestart := 0
  bmapstart := 1

/-- The only inode has the given type and is empty, and the block of data is free. -/
def tinyDisk (type : ℕ) : Disk := fun b =>
  if b = 0 then Dinode.write .zero 0 (Dinode.zero.withType type)
  else if b = 1 then (Bytes.zero.setBit 0).setBit 1
  else .zero

/-- The inode is in the table. -/
def tinyState (type : ℕ) : State where
  disk := tinyDisk type
  itable := fun ip => ⟨0, if ip = 0 then 1 else 0, true, Dinode.zero.withType type⟩
  full := fun _ => false
  clock := 0

theorem sound_tinySb : tinySb.Sound where
  size_lt := by decide
  inodes := by decide
  bitmap := by decide

variable {type : ℕ}

theorem inode_tinyDisk (htype : type < 2 ^ 16) (inum : ℕ) : tinySb.inode (tinyDisk type) inum =
    if inum = 0 then Dinode.zero.withType type else .zero := by
  split_ifs with h
  · subst h
    have hfits : (Dinode.zero.withType type).Fits := { Dinode.zero_fits with type := htype }
    exact Dinode.read_write_self (by decide) hfits
  · exact Superblock.inode_of_le (by change 1 ≤ inum; omega)

theorem marked_tinyDisk : ∀ b < 2, tinySb.marked (tinyDisk type) b = true := by
  intro b hb
  have hblock : tinySb.bblock b = 1 := by
    simp only [Superblock.bblock, tinySb, bpb, bsize]
    omega
  rw [Superblock.marked, hblock, tinyDisk, if_neg (by decide), if_pos rfl,
    Bytes.bit_setBit (by decide), Bytes.bit_setBit (by decide),
    Nat.mod_eq_of_lt (by simp [bpb, bsize]; omega)]
  rcases Nat.lt_or_ge b 1 with h | h
  · obtain rfl : b = 0 := by omega
    rfl
  · obtain rfl : b = 1 := by omega
    rfl

/-- The file system on the small disk is in order, if nothing but the inode is in the table. -/
theorem consistent_tiny {itable : ℕ → Inode} {full : ℕ → Bool} {clock : ℕ} (htype : type < 2 ^ 16)
    (h0 : type ≠ 0) (hitable : ∀ ip, 0 < (itable ip).ref → ip = 0 ∧ (itable ip).inum = 0 ∧
      (itable ip).din = Dinode.zero.withType type) :
    Consistent tinySb ⟨tinyDisk type, itable, full, clock⟩ := by
  have hinode := inode_tinyDisk htype
  have haddrs : ∀ inum i, (tinySb.inode (tinyDisk type) inum).addrs i = 0 := by
    intro inum i
    rw [hinode]
    split_ifs <;> rfl
  refine ⟨?_, ?_, ?_, ?_, ?_⟩
  · refine .of_none (fun r => ?_) (by decide) (by decide) fun b hb => marked_tinyDisk b hb
    cases r with
    | addr inum i => exact haddrs inum i
    | entry inum j => exact refs_entry_of_zero (haddrs inum ndirect)
  · intro inum bn hbn
    have hsize : (tinySb.inode (tinyDisk type) inum).size = 0 := by
      rw [hinode]
      split_ifs <;> rfl
    simp [hsize] at hbn
  · intro ip href _
    obtain ⟨-, hinum, hdin⟩ := hitable ip href
    change (itable ip).inum < 1 ∧ (itable ip).din = tinySb.inode (tinyDisk type) (itable ip).inum ∧
      (itable ip).din.type ≠ 0
    rw [hinum, hdin, hinode, if_pos rfl]
    exact ⟨by decide, rfl, h0⟩
  · intro ip ip' href href' _
    rw [(hitable ip href).1, (hitable ip' href').1]
  · intro ip hip
    by_contra hne
    obtain ⟨rfl, -⟩ := hitable ip (Nat.pos_of_ne_zero hne)
    exact absurd hip (by decide)

theorem consistent_tinyState (htype : type < 2 ^ 16) (h0 : type ≠ 0) :
    Consistent tinySb (tinyState type) := by
  refine consistent_tiny htype h0 fun ip href => ?_
  have hip : ip = 0 := by
    by_contra hne
    simp [hne] at href
  exact ⟨hip, rfl, rfl⟩

theorem locked_tinyState : Locked (tinyState type) 0 := ⟨Nat.one_pos, rfl⟩

/-- Three bytes, and then two more of which the first overwrites the last of them. -/
def twoWrites : List (Write × ℤ) :=
  [(⟨2, 2, fun _ => 9, by decide, by decide⟩, 2), (⟨0, 3, fun _ => 7, by decide, by decide⟩, 3)]

/-- The empty file, and the file after the writes above. -/
theorem file_is_array_tiny : IsArray tinySb 0 [] (tinyState tFile) ∧
    ∃ s, LogReach (fun w => Write.call tinySb 0 w) (fun _ _ => True) (tinyState tFile) twoWrites s ∧
      IsArray tinySb 0 [7, 7, 9, 9] s := by
  have h₀ : Consistent tinySb (tinyState tFile) := consistent_tinyState (by decide) (by decide)
  have hrun : LogReach (fun w => Write.call tinySb 0 w) (fun _ _ => True) (tinyState tFile)
      twoWrites _ :=
    .next (.next .start trivial (returns_of_eval (by decide +kernel))) trivial
      (returns_of_eval (by decide +kernel))
  exact ⟨file_is_array sound_tinySb h₀ locked_tinyState rfl .start, _, hrun,
    file_is_array sound_tinySb h₀ locked_tinyState rfl hrun⟩

end Tiny

end RaidSystem.Fs
