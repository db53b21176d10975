/-
**Writes from user memory that is mapped in part.**

`writei` copies the bytes of a request into the buffers of the file's blocks, one block after the
other, and `copyin` fetches them from user memory page by page.  When it comes to a page that is not
mapped, the bytes before it have been copied.  `writei` then leaves the loop without `log_write` for
the block, and counts only the blocks before it.

If the mapped bytes end where a block of the file ends, nothing was copied into the last buffer, and
the call has changed what it reports.  The same holds if there was no block: the new one was
recorded when it was zeroed, and the bytes in it are beyond the end of the file.  Otherwise bytes of
the file are overwritten that the call does not report, in a buffer that the log knows nothing of,
unless the call is refused, or runs out of blocks before it comes to the place, or the bytes were
there before.

* `Covers` — every block that changed was recorded;
* `bmap_records` — the blocks that `bmap` records;
* `Harmless` — the requests that do no harm;
* `faulting_write` — **a write from user memory changes what it reports exactly if it is harmless**;
* `faulting_write_unreported` — one mapped byte of two.
-/

import RaidSystem.CopyPermissions
import RaidSystem.WriteLog

set_option autoImplicit false

namespace RaidSystem.Fs

open Prog Logged Function

/-! ### Changes and records -/

section Covers

variable {s s₁ s' : State} {b : ℕ} {l l' : List ℕ} {d : Block}

/-- The records `l` cover the changes from `s` to `s'`: a block that was not recorded is as it
was. -/
def Covers (s : State) (l : List ℕ) (s' : State) : Prop := ∀ b ∉ l, s'.disk b = s.disk b

theorem Covers.refl : Covers s [] s := fun _ _ => rfl

theorem Covers.trans (h : Covers s l s₁) (h' : Covers s₁ l' s') : Covers s (l ++ l') s' := by
  intro b hb
  rw [List.mem_append, not_or] at hb
  rw [h' b hb.2, h b hb.1]

theorem Covers.setBlock : Covers s [b] (s.setBlock b d) := by
  intro c hc
  rw [State.setBlock_disk, update_of_ne (by simpa using hc)]

/-- A block that was recorded before may be changed. -/
theorem Covers.setBlock_of_mem (h : Covers s l s') (hb : b ∈ l) : Covers s l (s'.setBlock b d) := by
  intro c hc
  have hne : c ≠ b := by
    rintro rfl
    exact hc hb
  rw [State.setBlock_disk, update_of_ne hne, h c hc]

end Covers

/-! ### The blocks that are recorded -/

section Records

variable {sb : Superblock} {s s₁ : State} {ip i ind bn a c : ℕ} {t t' : List LogEvent}

/-- A block of the free map, or a new block. -/
def NewRecord (sb : Superblock) (t : List LogEvent) (c : ℕ) : Prop :=
  sb.bmapstart ≤ c ∧ c < sb.datastart ∨ .fs (.alloc c) ∈ t ∧ sb.datastart ≤ c ∧ c < sb.size

theorem NewRecord.mono (h : NewRecord sb t c) (ht : t ⊆ t') : NewRecord sb t' c :=
  h.imp_right fun h => ⟨ht h.1, h.2⟩

section

variable (hsb : sb.Sound) (h : Open sb s ip)

include hsb h

/-- `balloc` records a block of the free map and the new block, which is zeroed. -/
theorem balloc_logged :
    Ends (fun _ => False) (Logged.balloc sb) s fun b t s' => Covers s (recorded t) s' ∧
      (b ≠ 0 → b ∈ recorded t ∧ s'.disk b = .zero) ∧ s'.itable = s.itable ∧
      ∀ c ∈ recorded t, NewRecord sb t c := by
  unfold Logged.balloc
  simp only [ends_bind, ends_get, ends_modify]
  cases hfind : s.findBlock sb with
  | none => simp [Covers]
  | some b =>
    rw [State.findBlock] at hfind
    split_ifs at hfind
    obtain ⟨hb, hfree⟩ := freeBlock_eq_some (q := 0) (by rwa [Nat.zero_mul])
    have hlo := (h.owned.of_free hfree).1
    simp only [Logged.logWrite, Logged.bzero, ends_bind, ends_modify, ends_emit, ends_pure]
    have hmap : Covers s [sb.bblock b] (s.tick.setBlock (sb.bblock b)
        ((s.disk (sb.bblock b)).setBit (b % bpb))) := Covers.setBlock (s := s.tick)
    refine ⟨hmap.trans Covers.setBlock, fun _ => ⟨by simp, ?_⟩, rfl, fun c hc => ?_⟩
    · rw [State.setBlock_disk, update_self]
    · obtain rfl | rfl : c = sb.bblock b ∨ c = b := by simpa using hc
      · exact .inl ⟨Superblock.bmapstart_le_bblock, hsb.bitmap b hb⟩
      · exact .inr ⟨by simp, hlo, hb⟩

theorem bmapAddr_logged :
    Ends (fun _ => False) (Logged.bmapAddr sb ip i) s fun a t s' => Covers s (recorded t) s' ∧
      ((s.din ip).addrs i = 0 → a ≠ 0 → a ∈ recorded t ∧ s'.disk a = .zero) ∧
      ((s.din ip).addrs i ≠ 0 → a = (s.din ip).addrs i ∧ s' = s) ∧
      ∀ c ∈ recorded t, NewRecord sb t c := by
  unfold Logged.bmapAddr
  simp only [ends_bind, ends_get, List.nil_append]
  split_ifs with hold
  · rw [ends_bind]
    refine (balloc_logged hsb h).post ?_
    rintro a t s₁ ⟨h₁, hnew, -, hrec⟩
    split_ifs with ha
    · rw [ends_pure, List.append_nil]
      exact ⟨h₁, fun _ h => absurd rfl h, fun h => absurd hold h, hrec⟩
    · rw [ends_bind, ends_modify, ends_pure, List.append_nil, List.append_nil]
      exact ⟨h₁, fun _ => hnew, fun h => absurd hold h, hrec⟩
  · rw [ends_pure]
    exact ⟨.refl, fun h => absurd h hold, fun _ => ⟨rfl, rfl⟩, by simp⟩

theorem bmapEntry_logged :
    Ends (fun _ => False) (Logged.bmapEntry sb ind bn) s fun a t s' => Covers s (recorded t) s' ∧
      (word (s.disk ind) bn = 0 → a ≠ 0 → a ∈ recorded t) ∧ s'.itable = s.itable ∧
      ∀ c ∈ recorded t, NewRecord sb t c ∨ c = ind := by
  unfold Logged.bmapEntry
  simp only [ends_bind, ends_get, List.nil_append]
  split_ifs with hold
  · rw [ends_bind]
    refine (balloc_logged hsb h).post ?_
    rintro a t s₁ ⟨h₁, hnew, hitable, hrec⟩
    split_ifs with ha
    · rw [ends_pure, List.append_nil]
      exact ⟨h₁, fun _ h => absurd rfl h, hitable, fun c hc => .inl (hrec c hc)⟩
    · simp only [Logged.logWrite, ends_bind, ends_modify, ends_emit, ends_pure, recorded_append]
      refine ⟨h₁.trans Covers.setBlock, fun _ h => List.mem_append_left _ (hnew h).1, hitable,
        fun c hc => ?_⟩
      obtain hc | rfl : c ∈ recorded t ∨ c = ind := by simpa using hc
      · exact .inl ((hrec c hc).mono (List.subset_append_left _ _))
      · exact .inr rfl
  · rw [ends_pure]
    exact ⟨.refl, fun h => absurd h hold, rfl, by simp⟩

/-- **`bmap` records what it changes**, and the block that it returns if that is a new one; and it
records blocks of the free map, new blocks, and the indirect block only. -/
theorem bmap_records :
    Ends (fun _ => True) (Logged.bmap sb ip bn) s fun a t s' => (Covers s (recorded t) s' ∧
        (s.refs sb ip (blockRef (s.inum ip) bn) = 0 → a ≠ 0 → a ∈ recorded t)) ∧
      ∀ c ∈ recorded t, NewRecord sb t c ∨ c = (s'.din ip).addrs ndirect ∧ c ≠ 0 := by
  unfold Logged.bmap blockRef
  split_ifs with hdirect hindirect
  · rw [Open.refs_addr]
    exact (bmapAddr_logged hsb h).total.post fun a t s' ⟨h, hnew, _, hrec⟩ =>
      ⟨⟨h, fun h0 ha => (hnew h0 ha).1⟩, fun c hc => .inl (hrec c hc)⟩
  · rw [ends_bind]
    have hmapped := ends_unlogged.1 (bmapAddr_ends hsb h (Nat.le_refl ndirect))
    refine (hmapped.and (bmapAddr_logged hsb h)).total.post ?_
    rintro ind t s₁ ⟨⟨h₁, -⟩, hcovers, hnew, hold, hrec⟩
    split_ifs with hind
    · rw [ends_pure, List.append_nil]
      exact ⟨⟨hcovers, fun _ h => absurd rfl h⟩, fun c hc => .inl (hrec c hc)⟩
    · have haddr : ind = (s₁.din ip).addrs ndirect := by
        rw [h₁.block, ← h₁.grown.inum, Open.refs_addr]
      refine (bmapEntry_logged hsb h₁.opened).total.post ?_
      rintro a t₂ s₂ ⟨hcovers₂, hentry, hitable, hrec₂⟩
      rw [recorded_append]
      refine ⟨⟨hcovers.trans hcovers₂, fun hzero ha => List.mem_append_right _ (hentry ?_ ha)⟩,
        fun c hc => ?_⟩
      · -- the indirect block is new, or its entry was empty
        rcases eq_or_ne ((s.din ip).addrs ndirect) 0 with h0 | h0
        · rw [(hnew h0 hind).2]
          exact Bytes.num_zero
        · obtain ⟨rfl, rfl⟩ := hold h0
          rwa [State.refs, refs_entry (by rwa [Open.inodes_self]), Open.inodes_self] at hzero
      · rcases List.mem_append.1 hc with hc | hc
        · exact .inl ((hrec c hc).mono (List.subset_append_left _ _))
        · rcases hrec₂ c hc with hnew | rfl
          · exact .inl (hnew.mono (List.subset_append_right _ _))
          · exact .inr ⟨by rw [State.din, hitable]; exact haddr, hind⟩
  · trivial

/-- What `bmap` does, with its records. -/
theorem bmap_logged (hbn : bn < maxfile) :
    Ends (fun _ => False) (Logged.bmap sb ip bn) s fun a t s' =>
      (Mapped sb ip (blockRef (s.inum ip) bn) s a (t.filterMap LogEvent.erase) s' ∧
        ∀ r, r.IsData → r ≠ blockRef (s.inum ip) bn → s'.refs sb ip r = s.refs sb ip r) ∧
      (Covers s (recorded t) s' ∧
        (s.refs sb ip (blockRef (s.inum ip) bn) = 0 → a ≠ 0 → a ∈ recorded t)) ∧
      ∀ c ∈ recorded t, NewRecord sb t c ∨ c = (s'.din ip).addrs ndirect ∧ c ≠ 0 :=
  (ends_unlogged.1 (bmap_mapped hsb h hbn)).and (bmap_records hsb h)

end

theorem mem_erase {e : Event} : e ∈ t.filterMap LogEvent.erase ↔ .fs e ∈ t := by
  rw [List.mem_filterMap]
  constructor
  · rintro ⟨_ | e', hmem, heq⟩
    · cases heq
    · cases heq
      exact hmem
  · exact fun h => ⟨_, h, rfl⟩

/-- A block of the file that there was is not recorded. -/
theorem not_recorded {r r' : BlockRef} (h : Open sb s ip)
    (h₁ : Mapped sb ip r s a (t.filterMap LogEvent.erase) s₁)
    (hrec : ∀ c ∈ recorded t, NewRecord sb t c ∨ c = (s₁.din ip).addrs ndirect ∧ c ≠ 0)
    (hdata : r'.IsData) (h0 : s.refs sb ip r' ≠ 0) : s.refs sb ip r' ∉ recorded t := by
  intro hc
  rcases hrec _ hc with (⟨-, hlt⟩ | ⟨halloc, -⟩) | ⟨hind, -⟩
  · have := (h.owned.inside r' h0).1
    omega
  · exact (h₁.grown.fresh _ (mem_erase.2 halloc)).2 r' rfl
  · have hrefs : s₁.refs sb ip (.addr (s₁.inum ip) ndirect) = (s₁.din ip).addrs ndirect :=
      Open.refs_addr
    have hkept := h₁.grown.kept r' h0
    have heq := h₁.opened.owned.unique r' (.addr (s₁.inum ip) ndirect) (by rwa [hkept])
      (by rw [hkept, hind, hrefs])
    exact (heq ▸ hdata) rfl

end Records

/-! ### The loop -/

section Loop

variable {sb : Superblock} {s s₁ s' : State} {ip off n tot k c : ℕ} {src : ℕ → Byte}
  {t : List Event}

/-- The bytes of one block are there together. -/
theorem has_of_block (hk : k < bsize - off % bsize) : s.Has sb ip (off + k) ↔ s.Has sb ip off := by
  rw [State.Has, State.Has, (div_mod_add hk).1]

/-- Bytes were copied into a block that the file did not have, and are not counted. -/
theorem Written.of_new_block (hsb : sb.Sound) (h : Open sb s₁ ip)
    (hg : Grown sb ip BlockRef.IsData s t s₁) (hoff : s₁.Has sb ip off) (hnew : ¬ s.Has sb ip off)
    (hc : c ≤ bsize - off % bsize)
    (hs' : s' = s₁.setBlock (s₁.refs sb ip (blockRef (s₁.inum ip) (off / bsize)))
      ((s₁.disk (s₁.refs sb ip (blockRef (s₁.inum ip) (off / bsize)))).splice (off % bsize) c
        fun i => src (tot + i))) :
    Written sb ip none src tot tot off s (tot, off) t s' := by
  have hwritten : Written sb ip (some 0) src tot tot off s _ t s' :=
    .of_block h hg hoff hc hs' hsb le_rfl nofun (.inr rfl)
  rw [Nat.sub_self, Nat.add_zero] at hwritten
  have hrefs : s'.refs sb ip = s₁.refs sb ip := by
    rw [hs']
    exact (h.setData hsb blockRef_isData blockRef_inum hoff).2.2
  refine { hwritten with beyond := ?_, full := fun _ hlt => absurd hlt (Nat.lt_irrefl _) }
  rintro - k hk hle
  rw [byteAt_setData h hc (hg.has hk) hs' hrefs, if_neg, hg.byteAt hk]
  -- the file had no byte of the block
  rintro ⟨-, hlt⟩
  obtain ⟨i, rfl⟩ : ∃ i, k = off + i := ⟨k - off, by omega⟩
  exact hnew ((has_of_block (by omega)).1 hk)

/-- Copying nothing changes nothing. -/
theorem setBlock_splice_zero {a at₀ : ℕ} {d : ℕ → Byte} :
    s.setBlock a ((s.disk a).splice at₀ 0 d) = s := by
  have hsplice : (s.disk a).splice at₀ 0 d = s.disk a := Bytes.ext fun i _ =>
    Bytes.get_splice_of_not_mem (by omega)
  rw [hsplice, State.setBlock, update_eq_self]

/-- Copying the bytes that are there changes nothing, and copying others changes the block. -/
theorem splice_eq_iff {d : ℕ → Byte} (hc : c ≤ bsize - off % bsize) :
    (s.disk (s.refs sb ip (blockRef (s.inum ip) (off / bsize)))).splice (off % bsize) c d =
        s.disk (s.refs sb ip (blockRef (s.inum ip) (off / bsize))) ↔
      ∀ i < c, d i = s.byteAt sb ip (off + i) := by
  constructor
  · intro heq i hi
    obtain ⟨hdiv, hmod⟩ := div_mod_add (by omega : i < bsize - off % bsize)
    rw [State.byteAt, hdiv, hmod, ← heq, Bytes.get_splice_of_mem (by omega) (by omega) (by omega),
      Nat.add_sub_cancel_left]
  · intro h
    refine Bytes.ext fun i hi => ?_
    rw [Bytes.get_splice hi]
    split_ifs with hin
    · obtain ⟨hdiv, hmod⟩ :=
        div_mod_add (by omega : i - off % bsize < bsize - off % bsize)
      rw [h _ (by omega), State.byteAt, hdiv, hmod, Nat.add_sub_cancel' hin.1]
    · rfl

/-- A request for the bytes from `off` to `last`, of which those before `e` are mapped and are to be
`new`, does no harm: the mapped bytes are all, or none, or end with a block of the file, or where
the file has no block, or the call runs out of blocks, or the bytes in front of `e` in its block are
as they were. -/
def Harmless (sb : Superblock) (s : State) (ip : ℕ) (new : ℕ → Byte) (off e last : ℕ)
    (t : List LogEvent) : Prop :=
  e = last ∨ e = off ∨ e % bsize = 0 ∨ ¬ s.Has sb ip e ∨ .fs .outOfBlocks ∈ t ∨
    ∀ p, off ≤ p → p < e → p / bsize = e / bsize → new p = s.byteAt sb ip p

/-- Of the trace it only matters whether the call ran out of blocks. -/
theorem harmless_congr {new : ℕ → Byte} {e last : ℕ} {t₁ t₂ : List LogEvent}
    (h : .fs .outOfBlocks ∈ t₁ ↔ .fs .outOfBlocks ∈ t₂) :
    Harmless sb s ip new off e last t₁ ↔ Harmless sb s ip new off e last t₂ := by
  rw [Harmless, h, Harmless]

/-- One block of the request is done, and the other blocks are as they were. -/
theorem harmless_next {new new' : ℕ → Byte} {e last m : ℕ} {t₁ t₂ : List LogEvent} (hm : 0 < m)
    (hend : off + m ≤ e) (hfull : e ≠ last → off % bsize + m = bsize)
    (hnew : ∀ p, off + m ≤ p → new' p = new p)
    (hhas : ∀ p, p / bsize ≠ off / bsize → (s'.Has sb ip p ↔ s.Has sb ip p))
    (hbyte : ∀ p, s.Has sb ip p → p / bsize ≠ off / bsize → s'.byteAt sb ip p = s.byteAt sb ip p)
    (hroom : .fs .outOfBlocks ∉ t₁) :
    Harmless sb s' ip new' (off + m) e last t₂ ↔ Harmless sb s ip new off e last (t₁ ++ t₂) := by
  unfold Harmless
  by_cases hlast : e = last
  · exact ⟨fun _ => .inl hlast, fun _ => .inl hlast⟩
  have hblock := hfull hlast
  have hother : ∀ p, off + m ≤ p → p / bsize ≠ off / bsize := by
    intro p hp
    simp only [bsize] at *
    omega
  have hsame : ∀ p, p / bsize = e / bsize → off ≤ p → off + m ≤ p := by
    intro p hp hle
    have := hother e hend
    simp only [bsize] at *
    omega
  have halign : e = off + m → e % bsize = 0 := by
    intro h
    simp only [bsize] at *
    omega
  rw [List.mem_append, hhas e (hother e hend)]
  by_cases hhas_e : s.Has sb ip e
  · have hbytes : (∀ p, off + m ≤ p → p < e → p / bsize = e / bsize → new' p = s'.byteAt sb ip p) ↔
        ∀ p, off ≤ p → p < e → p / bsize = e / bsize → new p = s.byteAt sb ip p := by
      have hp : ∀ p, off + m ≤ p → p / bsize = e / bsize →
          s'.byteAt sb ip p = s.byteAt sb ip p := by
        intro p hle hdiv
        refine hbyte p ?_ (hother p hle)
        rwa [State.Has, hdiv]
      constructor
      · intro h p hle hlt hdiv
        have hle' := hsame p hdiv hle
        rw [← hnew p hle', h p hle' hlt hdiv, hp p hle' hdiv]
      · intro h p hle hlt hdiv
        rw [hnew p hle, h p (by omega) hlt hdiv, hp p hle hdiv]
    rw [hbytes]
    constructor
    · rintro (h | h | h | h | h | h)
      · exact .inl h
      · exact .inr (.inr (.inl (halign h)))
      · exact .inr (.inr (.inl h))
      · exact absurd hhas_e h
      · exact .inr (.inr (.inr (.inr (.inl (.inr h)))))
      · exact .inr (.inr (.inr (.inr (.inr h))))
    · rintro (h | h | h | h | (h | h) | h)
      · exact .inl h
      · omega
      · exact .inr (.inr (.inl h))
      · exact absurd hhas_e h
      · exact absurd h hroom
      · exact .inr (.inr (.inr (.inr (.inl h))))
      · exact .inr (.inr (.inr (.inr (.inr h))))
  · exact ⟨fun _ => .inr (.inr (.inr (.inl hhas_e))), fun _ => .inr (.inr (.inr (.inl hhas_e)))⟩

/-- Block `bn` of the file has changed, and was not recorded. -/
structure Spoilt (sb : Superblock) (ip bn : ℕ) (s : State) (t : List LogEvent) (s' : State) :
    Prop where
  opened : Open sb s' ip
  has : s.refs sb ip (blockRef (s.inum ip) bn) ≠ 0
  changed : s'.disk (s.refs sb ip (blockRef (s.inum ip) bn)) ≠
    s.disk (s.refs sb ip (blockRef (s.inum ip) bn))
  unrecorded : s.refs sb ip (blockRef (s.inum ip) bn) ∉ recorded t

/-- A block that is spoilt later, and that was not recorded before. -/
theorem Spoilt.of_later {bn : ℕ} {t t' : List LogEvent} (h : Spoilt sb ip bn s₁ t' s')
    (hcovers : Covers s (recorded t) s₁)
    (href : s₁.refs sb ip (blockRef (s₁.inum ip) bn) = s.refs sb ip (blockRef (s.inum ip) bn))
    (hnot : s.refs sb ip (blockRef (s.inum ip) bn) ∉ recorded t) :
    Spoilt sb ip bn s (t ++ t') s' := by
  obtain ⟨hopen, h0, hchanged, hlater⟩ := h
  rw [href] at h0 hchanged hlater
  rw [hcovers _ hnot] at hchanged
  exact ⟨hopen, h0, hchanged, by simp [hnot, hlater]⟩

/-- The loop of `writei` from user memory, of which `k` bytes are mapped, in `s` at `tot` and
`off`. -/
def LoopEnds (sb : Superblock) (ip : ℕ) (src : ℕ → Byte) (n k tot off : ℕ) (s : State) (r : ℕ × ℕ)
    (t : List LogEvent) (s' : State) : Prop :=
  let harmless := Harmless sb s ip (fun p => src (tot + (p - off))) off (off + (k - tot))
    (off + (n - tot)) t
  (Written sb ip none src r.1 tot off s r (t.filterMap LogEvent.erase) s' ∧ r.1 ≤ k ∧
      Covers s (recorded t) s') ∧ harmless ∨
    Spoilt sb ip ((off + (k - tot)) / bsize) s t s' ∧ ¬ harmless

/-- The mapped bytes end inside a block that the file has. -/
theorem loopEnds_in_block (hsb : sb.Sound) (h : Open sb s ip) (hold : s.Has sb ip off)
    (htot : tot < k) (hshort : k - tot < chunk n tot off) :
    LoopEnds sb ip src n k tot off s (tot, off) []
      (s.setBlock (s.refs sb ip (blockRef (s.inum ip) (off / bsize)))
        ((s.disk (s.refs sb ip (blockRef (s.inum ip) (off / bsize)))).splice (off % bsize) (k - tot)
          fun i => src (tot + i))) := by
  have hrest : chunk n tot off ≤ n - tot := chunk_le_rest
  have hblock : chunk n tot off ≤ bsize - off % bsize := chunk_le
  obtain ⟨hdiv, hmod⟩ := div_mod_add (by omega : k - tot < bsize - off % bsize)
  by_cases hsame : ∀ i < k - tot, src (tot + i) = s.byteAt sb ip (off + i)
  · refine .inl ⟨?_, .inr (.inr (.inr (.inr (.inr fun p h₁ h₂ _ => ?_))))⟩
    · rw [(splice_eq_iff (by omega)).2 hsame, State.setBlock, update_eq_self]
      exact ⟨.of_grown h .refl le_rfl fun hlt => absurd hlt (Nat.lt_irrefl _), by omega, .refl⟩
    · dsimp only
      rw [hsame _ (by omega), Nat.add_sub_cancel' h₁]
  · refine .inr ⟨⟨(h.setData hsb blockRef_isData blockRef_inum hold).1, ?_, ?_, by simp⟩, ?_⟩
    · rwa [hdiv]
    · rw [hdiv, State.setBlock_disk, update_self]
      exact fun heq => hsame ((splice_eq_iff (by omega)).1 heq)
    · rintro (h₁ | h₁ | h₁ | h₁ | h₁ | h₁)
      · omega
      · omega
      · omega
      · exact h₁ (by rwa [State.Has, hdiv])
      · cases h₁
      · refine hsame fun i hi => ?_
        have hi' := (div_mod_add (by omega : i < bsize - off % bsize)).1
        rw [← h₁ (off + i) (by omega) (by omega) (hi'.trans hdiv.symm)]
        dsimp only
        rw [Nat.add_sub_cancel_left]

/-- The bytes of a block were written and recorded, and the loop goes on. -/
theorem LoopEnds.next {m : ℕ} {r : ℕ × ℕ} {t₁ t₂ : List LogEvent} {s₂ : State} (hsb : sb.Sound)
    (h : Open sb s ip) (hlt : tot < n) (hkn : k ≤ n) (hm : m = chunk n tot off)
    (hmapped : m ≤ k - tot)
    (h₁ : Mapped sb ip (blockRef (s.inum ip) (off / bsize)) s
      (s₁.refs sb ip (blockRef (s₁.inum ip) (off / bsize))) (t₁.filterMap LogEvent.erase) s₁)
    (hothers : ∀ r, r.IsData → r ≠ blockRef (s.inum ip) (off / bsize) →
      s₁.refs sb ip r = s.refs sb ip r)
    (hcovers : Covers s (recorded t₁) s₁)
    (hrec : ∀ c ∈ recorded t₁, NewRecord sb t₁ c ∨ c = (s₁.din ip).addrs ndirect ∧ c ≠ 0)
    (ha : s₁.Has sb ip off)
    (hs₂ : s₂ = s₁.setBlock (s₁.refs sb ip (blockRef (s₁.inum ip) (off / bsize)))
      ((s₁.disk (s₁.refs sb ip (blockRef (s₁.inum ip) (off / bsize)))).splice (off % bsize) m
        fun i => src (tot + i)))
    (hnext : LoopEnds sb ip src n k (tot + m) (off + m) s₂ r t₂ s') :
    LoopEnds sb ip src n k tot off s r
      (t₁ ++ .logWrite (s₁.refs sb ip (blockRef (s₁.inum ip) (off / bsize))) :: t₂) s' := by
  have hpos : 0 < m := hm ▸ chunk_pos hlt
  have hrest : m ≤ n - tot := hm ▸ chunk_le_rest
  have hblock : m ≤ bsize - off % bsize := hm ▸ chunk_le
  have hinum := h₁.grown.inum
  have hwritten : Written sb ip none src (tot + m) tot off s _ (t₁.filterMap LogEvent.erase) s₂ :=
    .of_block h₁.opened h₁.grown ha hblock hs₂ hsb (by omega) (fun _ => rfl) (.inl (by omega))
  rw [Nat.add_sub_cancel_left] at hwritten
  have hrefs : ∀ bn, bn ≠ off / bsize →
      s₂.refs sb ip (blockRef (s₂.inum ip) bn) = s.refs sb ip (blockRef (s.inum ip) bn) := by
    intro bn hne
    have hdata : s₂.refs sb ip = s₁.refs sb ip := by
      rw [hs₂]
      exact (h₁.opened.setData hsb blockRef_isData blockRef_inum ha).2.2
    rw [hwritten.grown.inum, hdata, hothers _ blockRef_isData fun heq => hne (blockRef_inj heq)]
  have hcovers₂ : Covers s (recorded
      (t₁ ++ [.logWrite (s₁.refs sb ip (blockRef (s₁.inum ip) (off / bsize)))])) s₂ := by
    rw [hs₂, recorded_append]
    exact hcovers.trans Covers.setBlock
  have hfull : off + (k - tot) ≠ off + (n - tot) → off % bsize + m = bsize := by
    intro hne
    rw [chunk] at hm
    omega
  have hroom : .fs .outOfBlocks ∉ t₁ := fun hout => ha (h₁.full.2 (mem_erase.2 hout))
  have hbyte : ∀ p, s.Has sb ip p → p / bsize ≠ off / bsize →
      s₂.byteAt sb ip p = s.byteAt sb ip p := by
    intro p hp hne
    rcases Nat.lt_or_ge p off with hlt' | hge
    · exact hwritten.before p hp hlt'
    · refine hwritten.beyond rfl p hp ?_
      dsimp only
      simp only [bsize] at *
      omega
  have hharmless : Harmless sb s₂ ip (fun p => src (tot + m + (p - (off + m)))) (off + m)
      (off + (k - tot)) (off + (n - tot)) t₂ ↔ Harmless sb s ip (fun p => src (tot + (p - off))) off
        (off + (k - tot)) (off + (n - tot))
        (t₁ ++ .logWrite (s₁.refs sb ip (blockRef (s₁.inum ip) (off / bsize))) :: t₂) := by
    rw [← harmless_next hpos (by omega) hfull (fun p hp => ?_)
      (fun p hp => by rw [State.Has, State.Has, hrefs _ hp]) hbyte hroom]
    · exact harmless_congr (by simp)
    · congr 1
      omega
  have hlast : ∀ x, tot ≤ x → m ≤ x - tot → off + m + (x - (tot + m)) = off + (x - tot) := by
    intro x h₁ h₂
    omega
  unfold LoopEnds at hnext ⊢
  rw [hlast k (by omega) (by omega), hlast n (by omega) (by omega)] at hnext
  rw [← hharmless]
  rcases hnext with ⟨⟨hw, hle, hcov⟩, hh⟩ | ⟨hspoilt, hh⟩
  · refine .inl ⟨⟨?_, hle, by simpa using hcovers₂.trans hcov⟩, hh⟩
    rw [List.filterMap_append]
    exact hwritten.trans hw
  · -- the block is another one, and was not touched so far
    have hne : (off + (k - tot)) / bsize ≠ off / bsize := by
      have := hfull fun heq => hh (.inl heq)
      simp only [bsize] at *
      omega
    have h0 := hspoilt.has
    rw [hrefs _ hne] at h0
    have hnot₁ := not_recorded h h₁ hrec blockRef_isData h0
    have hself : s.refs sb ip (blockRef (s.inum ip) ((off + (k - tot)) / bsize)) ≠
        s₁.refs sb ip (blockRef (s₁.inum ip) (off / bsize)) := by
      rw [← hothers _ blockRef_isData fun heq => hne (blockRef_inj heq), ← hinum]
      rw [← hothers _ blockRef_isData fun heq => hne (blockRef_inj heq), ← hinum] at h0
      exact fun heq => hne (blockRef_inj (h₁.opened.owned.unique _ _ h0 heq))
    rw [List.append_cons]
    exact .inr ⟨hspoilt.of_later hcovers₂ (hrefs _ hne) (by simp [hnot₁, hself]), hh⟩

/-- **The loop of `writei`** from user memory, of which `k` bytes are mapped. -/
theorem writeLoop_faulting {fuel : ℕ} (hsb : sb.Sound) (h : Open sb s ip) (hfuel : n - tot < fuel)
    (htot : tot ≤ k) (hkn : k ≤ n) (hmax : off + (n - tot) ≤ maxfile * bsize) :
    Ends (fun _ => False) (Logged.writeLoop sb ip (some k) src n fuel tot off) s
      (LoopEnds sb ip src n k tot off s) := by
  induction fuel generalizing tot off s with
  | zero => omega
  | succ fuel ih =>
    rw [Logged.writeLoop]
    split_ifs with hlt
    · have hbn : off / bsize < maxfile := Nat.div_lt_of_lt_mul (by rw [Nat.mul_comm]; omega)
      have hrest : chunk n tot off ≤ n - tot := chunk_le_rest
      have hblock : chunk n tot off ≤ bsize - off % bsize := chunk_le
      have hcopied : copied (some k) tot (chunk n tot off) = min (chunk n tot off) (k - tot) := rfl
      rw [ends_bind]
      dsimp only
      rw [hcopied]
      by_cases hin : s.Has sb ip off ∧ tot < k ∧ k - tot < chunk n tot off
      · obtain ⟨hold, htk, hshort⟩ := hin
        rw [(bmap_of_refs_logged hold).ends_iff, if_neg hold, ends_bind, ends_modify,
          Nat.min_eq_right (Nat.le_of_lt hshort), if_pos hshort, ends_pure]
        exact loopEnds_in_block hsb h hold htk hshort
      refine (bmap_logged hsb h hbn).post ?_
      rintro a t₁ s₁ ⟨⟨h₁, hothers⟩, ⟨hcovers, hrecorded⟩, hrec⟩
      have hinum := h₁.grown.inum
      split_ifs with ha hshort
      · rw [ends_pure, List.append_nil]
        refine .inl ⟨⟨.of_grown h₁.opened h₁.grown le_rfl fun hlt => absurd hlt
          (Nat.lt_irrefl _), htot, hcovers⟩, ?_⟩
        exact .inr (.inr (.inr (.inr (.inl (mem_erase.1 (h₁.full.1 ha))))))
      · -- the address of the user is not mapped, and nothing of the file is overwritten
        rw [ends_bind, ends_modify, ends_pure, List.append_nil, List.append_nil]
        have hle : k - tot < chunk n tot off := by omega
        rw [Nat.min_eq_right (Nat.le_of_lt hle)]
        obtain rfl := h₁.block
        by_cases hk : k = tot
        · subst hk
          rw [Nat.sub_self, setBlock_splice_zero]
          refine .inl ⟨⟨.of_grown h₁.opened h₁.grown le_rfl fun hlt => absurd hlt
            (Nat.lt_irrefl _), htot, hcovers⟩, .inr (.inl ?_)⟩
          rw [Nat.sub_self, Nat.add_zero]
        · have hnew : ¬ s.Has sb ip off := fun hold => hin ⟨hold, by omega, hle⟩
          rw [← hinum] at ha ⊢
          refine .inl ⟨⟨.of_new_block hsb h₁.opened h₁.grown ha hnew (by omega) rfl, htot, ?_⟩,
            .inr (.inr (.inr (.inl ?_)))⟩
          · rw [hinum] at ha ⊢
            exact hcovers.setBlock_of_mem (hrecorded (not_not.1 hnew) ha)
          · rwa [has_of_block (by omega)]
      · rw [ends_bind, ends_modify]
        have hmapped : chunk n tot off ≤ k - tot := by omega
        have hpos : 0 < chunk n tot off := chunk_pos hlt
        obtain rfl := h₁.block
        rw [← hinum] at ha ⊢
        rw [Nat.min_eq_left hmapped, Logged.logWrite, ends_bind, ends_emit]
        have hopen := (h₁.opened.setData hsb blockRef_isData blockRef_inum ha (d :=
          (s₁.disk (s₁.refs sb ip (blockRef (s₁.inum ip) (off / bsize)))).splice (off % bsize)
            (chunk n tot off) fun i => src (tot + i))).1
        refine (ih hopen (by omega) (by omega) (by omega)).post fun r t₂ s₃ hpost => ?_
        have hend := hpost.next hsb h hlt hkn rfl hmapped (hinum ▸ h₁) hothers hcovers hrec ha rfl
        simpa using hend
    · rw [ends_pure]
      refine .inl ⟨⟨.of_grown h .refl le_rfl fun hlt => absurd hlt (Nat.lt_irrefl _), htot,
        .refl⟩, .inl ?_⟩
      omega

end Loop

/-! ### The call -/

/-- The array after a write at `off` that returned `r`. -/
def afterWrite (A : List Byte) (off : ℕ) (src : ℕ → Byte) (r : ℤ) : List Byte :=
  if r < 0 then A else A.overwrite off ((List.range r.toNat).map src)

/-- The bytes of user memory, as `either_copyin` copies them into a buffer. -/
def source (pagetable : PageTable) (mem : ℕ → RaidSystem.Byte) (va : ℕ) : ℕ → Byte :=
  userBytes pagetable mem va

/-- `writei(ip, 1, va, off, n)`, in the address space of a process. -/
def writeiUser (sb : Superblock) (ip : ℕ) (pagetable : PageTable) (mem : ℕ → RaidSystem.Byte)
    (va off n : ℕ) : Logged ℤ :=
  Logged.writei sb ip (some (mappedLength pagetable va n)) (source pagetable mem va) off n

section Call

/-- **The bytes that a round of `writei` copies are those that `copyin` copies.** -/
theorem copied_eq_copyin {pagetable : PageTable} {mem dst : ℕ → RaidSystem.Byte}
    {at₀ va n m tot : ℕ} (htot : tot ≤ mappedLength pagetable va n) (hm : tot + m ≤ n) :
    copyin pagetable mem dst at₀ (va + tot) m =
      (if copied (some (mappedLength pagetable va n)) tot m < m then -1 else 0,
        memmove dst at₀ (fun i => source pagetable mem va (tot + i))
          (copied (some (mappedLength pagetable va n)) tot m)) := by
  have hshift : userBytes pagetable mem (va + tot) = fun i =>
      source pagetable mem va (tot + i) := by
    funext i
    rw [source, userBytes, userBytes, Nat.add_assoc]
  rw [copyin_eq, mappedLength_part htot hm, hshift]
  rfl

variable {sb : Superblock} {s : State} {ip off n k : ℕ} {src : ℕ → Byte}

/-- A call that is carried out. -/
theorem writei_faulting (hsb : sb.Sound) (h : Consistent sb s) (hl : Locked s ip)
    (hoff : off ≤ (s.din ip).size) (hmax : off + n ≤ maxfile * bsize) (hkn : k ≤ n) :
    Ends (fun _ => False) (Logged.writei sb ip (some k) src off n) s fun r t s' =>
      let harmless := Harmless sb s ip (fun p => src (p - off)) off (off + k) (off + n) t
      (∃ tot : ℕ, r = tot ∧ Consistent sb s' ∧ Locked s' ip ∧
        contents sb s' ip = (contents sb s ip).overwrite off ((List.range tot).map src) ∧
        Covers s (recorded t) s') ∧ harmless ∨ ¬ Covers s (recorded t) s' ∧ ¬ harmless := by
  rw [Logged.ends_writei hoff hmax]
  refine (writeLoop_faulting hsb (h.opened hl) (by omega) (Nat.zero_le _) hkn (by omega)).post
    fun r t₁ s₁ hpost => ?_
  obtain ⟨x, hx⟩ : ∃ x, x = (s₁.din ip).withSize (max (s.din ip).size r.2) := ⟨_, rfl⟩
  rw [recorded_append, State.setSize, ← hx,
    harmless_congr (show _ ↔ .fs .outOfBlocks ∈ t₁ by simp)]
  simp only [LoopEnds, Nat.zero_add, Nat.sub_zero] at hpost
  rcases hpost with ⟨⟨hw, hle, hcovers⟩, hh⟩ | ⟨hspoilt, hh⟩
  · have hwrote : Wrote sb ip none src off r.1 s r.1 _
        ((s₁.setDin ip x).setDinode sb (s₁.inum ip) x) :=
      hw.finish hsb h hl hoff (by omega) (by rw [hx])
    refine .inl ⟨⟨r.1, rfl, hwrote.consistent, hwrote.locked hl, hwrote.contents rfl, ?_⟩, hh⟩
    exact hcovers.trans (Covers.setBlock (s := s₁.setDin ip x))
  · -- the block of the inode is not a block of the file
    refine .inr ⟨fun hcovers => ?_, hh⟩
    have hin := ((h.opened hl).owned.inside _ hspoilt.has).1
    have hstart := hsb.inodes _ hspoilt.opened.inum_lt
    have hlt := hsb.bmapstart_lt hspoilt.opened.size_pos
    have hne : s.refs sb ip (blockRef (s.inum ip) ((off + k) / bsize)) ≠
        sb.iblock (s₁.inum ip) := by
      omega
    have hsame := hcovers _ (List.not_mem_append hspoilt.unrecorded (by simpa using hne))
    rw [State.setDinode, State.setBlock_disk, update_of_ne hne] at hsame
    exact hspoilt.changed hsame

/-- **A write from user memory** changes exactly what it reports, and has recorded every block that
it changed, if and only if it is refused or harmless. -/
theorem faulting_write (hsb : sb.Sound) (h : Consistent sb s) (hl : Locked s ip)
    (pagetable : PageTable)
    (mem : ℕ → RaidSystem.Byte) (va : ℕ) (hoff : off < 2 ^ 32) (hn : n < 2 ^ 32) :
    Ends (fun _ => False) (writeiUser sb ip pagetable mem va off n) s fun r t s' =>
      (IsArray sb ip (afterWrite (contents sb s ip) off (source pagetable mem va) r) s' ∧
          ∀ b, s'.disk b ≠ s.disk b → b ∈ recorded t) ↔
        ((s.din ip).size < off ∨ 2 ^ 32 ≤ off + n ∨ maxfile * bsize < off + n) ∨
          Harmless sb s ip (fun p => source pagetable mem va (p - off)) off
            (off + mappedLength pagetable va n) (off + n) t := by
  by_cases hbad : (s.din ip).size < off ∨ 2 ^ 32 ≤ off + n ∨ maxfile * bsize < off + n
  · have hrun : Runs (writeiUser sb ip pagetable mem va off n) s (-1) [] s :=
      Logged.writei_refused hoff hn hbad
    rw [hrun.ends_iff]
    exact ⟨fun _ => .inl hbad, fun _ => ⟨isArray_contents hsb h hl, fun b hb => absurd rfl hb⟩⟩
  · refine (writei_faulting hsb h hl (by omega) (by omega) mappedLength_le).post ?_
    rintro r t s' (⟨⟨tot, rfl, h', hl', hcontents, hcovers⟩, hh⟩ | ⟨hcovers, hh⟩)
    · refine ⟨fun _ => .inr hh, fun _ => ⟨?_, fun b hb => ?_⟩⟩
      · rw [afterWrite, if_neg (by omega), Int.toNat_natCast, ← hcontents]
        exact isArray_contents hsb h' hl'
      · by_contra hnot
        exact hb (hcovers b hnot)
    · refine ⟨fun hr => absurd (fun b hb => ?_) hcovers, fun hr => absurd (hr.resolve_left hbad) hh⟩
      by_contra hne
      exact hb (hr.2 b hne)

/-- One byte before the end of the only page. -/
theorem mappedLength_dataTable : mappedLength dataTable.pagetable 4095 2 = 1 := by decide

/-- A memory that holds the byte `9` everywhere. -/
def nines : ℕ → RaidSystem.Byte := fun _ => Bits.ofNat 8 9

/-- A file of three bytes. -/
def shortFile : State := (writei tinySb 0 none (fun _ => 7) 0 3 (tinyState tFile)).state

theorem consistent_shortFile : Consistent tinySb shortFile ∧ Locked shortFile 0 := by
  have h₀ : Consistent tinySb (tinyState tFile) := consistent_tinyState (by decide) (by decide)
  have hrun : Runs (writei tinySb 0 none (fun _ => 7) 0 3) (tinyState tFile) 3 _ shortFile :=
    runs_of_eval (by decide +kernel)
  obtain ⟨tot, -, hw⟩ :=
    hrun.ends_iff.1 (writei_ends sound_tinySb h₀ locked_tinyState (Nat.zero_le _) (by decide))
  exact ⟨hw.consistent, hw.locked locked_tinyState⟩

/-- One byte of two is mapped: this does no harm to an empty file, and to a file with other
bytes. -/
theorem faulting_write_tiny : mappedLength dataTable.pagetable 4095 2 = 1 ∧
    (Ends (fun _ => False) (writeiUser tinySb 0 dataTable.pagetable nines 4095 0 2)
      (tinyState tFile) fun r t s' => r = 0 ∧
        IsArray tinySb 0 (afterWrite [] 0 (source dataTable.pagetable nines 4095) r) s' ∧
        ∀ b, s'.disk b ≠ (tinyState tFile).disk b → b ∈ recorded t) ∧
    Ends (fun _ => False) (writeiUser tinySb 0 dataTable.pagetable nines 4095 0 2)
      shortFile fun r t s' => r = 0 ∧
        ¬ (IsArray tinySb 0 (afterWrite (contents tinySb shortFile 0) 0
          (source dataTable.pagetable nines 4095) r) s' ∧
        ∀ b, s'.disk b ≠ shortFile.disk b → b ∈ recorded t) := by
  refine ⟨mappedLength_dataTable, ?_, ?_⟩
  · have hrun : Runs (writeiUser tinySb 0 dataTable.pagetable nines 4095 0 2) (tinyState tFile) 0
        _ _ := runs_of_eval (by decide +kernel)
    have hiff := hrun.ends_iff.1 (faulting_write sound_tinySb
      (consistent_tinyState (by decide) (by decide)) locked_tinyState dataTable.pagetable nines
      4095 (by decide) (by decide))
    refine hrun.ends_iff.2 ⟨rfl, hiff.2 (.inr (.inr (.inr (.inr (.inl ?_)))))⟩
    rw [State.Has]
    decide +kernel
  · have hrun : Runs (writeiUser tinySb 0 dataTable.pagetable nines 4095 0 2) shortFile 0
        [.logWrite 0] _ := runs_of_eval (by decide +kernel)
    have hiff := hrun.ends_iff.1 (faulting_write sound_tinySb consistent_shortFile.1
      consistent_shortFile.2 dataTable.pagetable nines 4095 (by decide) (by decide))
    refine hrun.ends_iff.2 ⟨rfl, fun h => ?_⟩
    obtain hcond | hcond := hiff.1 h
    · revert hcond
      decide +kernel
    · rw [mappedLength_dataTable] at hcond
      obtain hcond | hcond | hcond | hcond | hcond | hcond := hcond
      · cases hcond
      · cases hcond
      · revert hcond
        decide +kernel
      · revert hcond
        rw [State.Has]
        decide +kernel
      · revert hcond
        decide +kernel
      · have hbyte := hcond 0 (by decide) (by decide) (by decide)
        revert hbyte
        decide +kernel

/-- **A write that faults in the middle of a block changes a byte of the file, returns `0`, and has
not recorded the block.** -/
theorem faulting_write_unreported : ∃ (s s' : State) (t : List LogEvent) (b : ℕ),
    Consistent tinySb s ∧ Locked s 0 ∧ Runs (readi tinySb 0 none 0 1) s (1, [7]) [] s ∧
    Runs (writeiUser tinySb 0 dataTable.pagetable (fun _ => Bits.ofNat 8 9) 4095 0 2) s 0 t s' ∧
    Runs (readi tinySb 0 none 0 1) s' (1, [9]) [] s' ∧ s'.disk b ≠ s.disk b ∧ b ∉ recorded t := by
  obtain ⟨h, hl⟩ := consistent_shortFile
  have hread : ∀ s : State, ∀ x : Byte, (s.din 0).size = 3 → s.Has tinySb 0 0 →
      contents tinySb s 0 = [x, 7, 7] → Runs (readi tinySb 0 none 0 1) s (1, [x]) [] s := by
    intro s x hsize hhas hcontents
    have hrun : Runs (readi tinySb 0 none 0 1) s _ [] s :=
      readi_runs_of_has (fun k hk => ?_) (Nat.zero_le _) (by decide)
    · rwa [hcontents, hsize] at hrun
    · rwa [State.Has, Nat.div_eq_of_lt (by simp only [bsize]; omega), ← Nat.zero_div bsize]
  have hrun : Runs (writeiUser tinySb 0 dataTable.pagetable nines 4095 0 2)
      shortFile 0 _ _ := runs_of_eval (by decide +kernel)
  refine ⟨shortFile, _, _, 2, h, hl, hread _ _ (by decide +kernel) ?_ (by decide +kernel), hrun,
    hread _ _ (by decide +kernel) ?_ (by decide +kernel), ?_, by decide +kernel⟩
  · rw [State.Has]
    decide +kernel
  · rw [State.Has]
    decide +kernel
  · intro heq
    have hbyte := congrArg (fun d : Block => d.get 0) heq
    revert hbyte
    decide +kernel

end Call

end RaidSystem.Fs
