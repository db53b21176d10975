/-
**Every block has one owner.**

Block numbers are kept in three places: the free map, the inodes, and the indirect blocks.  The
calls of the file system change them one after the other, and any allocation may fail between two of
the changes.  Nevertheless no block is ever referred to twice, and what is referred to is in use.

Main definitions:

* `Shrunk` — references of an inode were dropped and their blocks freed;
* `Action`, `step` — the calls that work on inodes;
* `OneOwner` — no block has two owners, every block with an owner is in use, and allocation and
  freeing go right.

Main results:

* `itrunc_ends` — **`itrunc` frees the blocks of an inode**, each of which was in use;
* `Consistent.setInode` — what may happen to an entry of the inode table;
* `blocks_have_one_owner` — **in every state that the calls lead to, every block has one owner**.
-/

import RaidSystem.FileBytes

set_option autoImplicit false

namespace RaidSystem.Fs

open Prog Function

/-! ### Freeing a block -/

section Free

variable {sb : Superblock} {s s' : State} {ip b c i j : ℕ} {f : BlockRef → ℕ}

/-- Block `b` was marked as free. -/
def State.release (sb : Superblock) (s : State) (b : ℕ) : State :=
  s.setBlock (sb.bblock b) ((s.disk (sb.bblock b)).clearBit (b % bpb))

theorem bfree_runs (h : sb.marked s.disk b = true) :
    Runs (bfree sb b) s () [] (s.release sb b) := by
  rw [bfree, (get_runs s).silent_iff, if_pos h]
  exact modify_runs _ _

theorem release_of_le (hsb : sb.Sound) (hb : b < sb.size) (hc : sb.datastart ≤ c) :
    (s.release sb b).disk c = s.disk c := by
  have hlt := hsb.bitmap b hb
  exact update_of_ne (by omega) _ _

theorem inode_release (hsb : sb.Sound) : sb.inode (s.release sb b).disk = sb.inode s.disk := by
  have hle : sb.bmapstart ≤ sb.bblock b := Superblock.bmapstart_le_bblock
  exact hsb.inode_congr fun x hx => update_of_ne (by omega) _ _

/-- A block with an owner is freed, and the owner forgets it. -/
theorem owned_release {r : BlockRef} (h : Owned f (sb.marked s.disk) sb.datastart sb.size)
    (hr : f r = b) (h0 : b ≠ 0) :
    Owned (update f r 0) (sb.marked (s.release sb b).disk) sb.datastart sb.size := by
  subst hr
  refine h.release h0 fun c _ hne hused => ?_
  have hmarked : sb.marked (s.release sb (f r)).disk c = (decide (c ≠ f r) && sb.marked s.disk c) :=
    Superblock.marked_clearBit
  rw [hmarked, decide_eq_true hne, hused, Bool.true_and]

end Free

/-! ### `itrunc` -/

section Truncate

variable {sb : Superblock} {s s₁ s' : State} {ip i j : ℕ}

/-- References of the inode in table entry `ip` were dropped, and nothing else has changed. -/
structure Shrunk (sb : Superblock) (ip : ℕ) (s s' : State) : Prop where
  opened : Open sb s' ip
  itable : s'.itable = update s.itable ip
    ((s.itable ip).withDin ((s.din ip).withAddrs (s'.din ip).addrs))
  inode : sb.inode s'.disk = sb.inode s.disk
  others : ∀ r, r.inum ≠ s.inum ip → s'.refs sb ip r = s.refs sb ip r

namespace Shrunk

theorem entry (h : Shrunk sb ip s s') :
    s'.itable ip = (s.itable ip).withDin ((s.din ip).withAddrs (s'.din ip).addrs) :=
  (congrFun h.itable ip).trans (update_self ..)

theorem inum (h : Shrunk sb ip s s') : s'.inum ip = s.inum ip := by
  rw [State.inum, h.entry, Inode.withDin_inum]

theorem refl (h : Open sb s ip) : Shrunk sb ip s s :=
  ⟨h, (update_eq_self ip s.itable).symm, rfl, fun _ _ => rfl⟩

theorem trans (h : Shrunk sb ip s s₁) (h' : Shrunk sb ip s₁ s') : Shrunk sb ip s s' where
  opened := h'.opened
  itable := by
    rw [h'.itable, State.din, h.entry, h.itable, update_idem]
    rfl
  inode := h'.inode.trans h.inode
  others := by
    intro r hr
    rw [h'.others r (by rwa [h.inum]), h.others r hr]

/-- An address is set to zero after its block and those of its entries were freed: `s₁` is the state
before that, and `f` the references that are left. -/
theorem of_setAddr {f : BlockRef → ℕ} (h : Open sb s ip) (hitable : s₁.itable = s.itable)
    (hinode : sb.inode s₁.disk = sb.inode s.disk)
    (hf : Owned f (sb.marked s₁.disk) sb.datastart sb.size) (hi : i ≤ ndirect)
    (hs' : s' = s₁.setDin ip ((s.din ip).withAddrs (update (s.din ip).addrs i 0)))
    (hrefs : s'.refs sb ip = f) (hothers : ∀ r, r.inum ≠ s.inum ip → f r = s.refs sb ip r) :
    Shrunk sb ip s s' := by
  have hdisk : s'.disk = s₁.disk := by rw [hs']; rfl
  have hdin : s'.din ip = (s.din ip).withAddrs (update (s.din ip).addrs i 0) := by
    rw [hs', State.din_setDin]
  refine ⟨⟨?_, ?_, ?_⟩, ?_, ?_, ?_⟩
  · rw [hs', State.inum_setDin, State.inum, hitable]
    exact h.inum_lt
  · rw [hdin]
    exact h.fits.withAddr hi (by decide)
  · rw [hrefs, hdisk]
    exact hf
  · rw [hdin, hs', State.setDin_itable, hitable]
    rfl
  · rw [hdisk, hinode]
  · rw [hrefs]
    exact hothers

end Shrunk

/-- One direct block. -/
theorem freeAddr_ends (hsb : sb.Sound) (h : Open sb s ip) (hi : i < ndirect) :
    Ends (fun _ => False) (freeAddr sb ip i) s fun _ t s' => t = [] ∧ Shrunk sb ip s s' ∧
      (s'.din ip).addrs = update (s.din ip).addrs i 0 := by
  unfold freeAddr
  simp only [ends_bind, ends_get, List.nil_append]
  split_ifs with h0
  · rw [ends_pure]
    exact ⟨rfl, .refl h, by rw [← h0, update_eq_self]⟩
  · have hr : s.refs sb ip (.addr (s.inum ip) i) = (s.din ip).addrs i := Open.refs_addr
    have hlt : (s.din ip).addrs i < sb.size := by
      rw [← hr] at h0 ⊢
      exact (h.owned.inside _ h0).2
    have hused : sb.marked s.disk ((s.din ip).addrs i) = true := by
      rw [← hr] at h0 ⊢
      exact h.owned.in_use _ h0
    have hinode : sb.inode (s.release sb ((s.din ip).addrs i)).disk = sb.inode s.disk :=
      inode_release hsb
    have hitable : (s.release sb ((s.din ip).addrs i)).itable = s.itable := rfl
    rw [ends_bind, (bfree_runs hused).ends_iff, ends_modify]
    refine ⟨rfl, ?_, by rw [State.din_setDin]; rfl⟩
    refine Shrunk.of_setAddr h hitable hinode (owned_release h.owned hr h0) (Nat.le_of_lt hi) rfl
      ?_ ?_
    · have hrefs : (s.release sb ((s.din ip).addrs i)).refs sb ip = s.refs sb ip := by
        have hinodes : (s.release sb ((s.din ip).addrs i)).inodes sb ip = s.inodes sb ip := by
          rw [State.inodes, inode_release hsb]
          rfl
        rw [State.refs, hinodes]
        refine refs_congr fun inum hne => ?_
        exact release_of_le hsb hlt (h.owned.inside (.addr inum ndirect) hne).1
      rw [← hrefs]
      exact Open.refs_setAddr fun heq => absurd heq (Nat.ne_of_lt hi)
    · intro r hr'
      have hne : r ≠ .addr (s.inum ip) i := by
        rintro rfl
        exact hr' rfl
      exact update_of_ne hne _ _

/-- The references after the first `j` entries of the indirect block were freed. -/
def dropEntries (inum j : ℕ) (f : BlockRef → ℕ) : BlockRef → ℕ
  | .addr inum' i => f (.addr inum' i)
  | .entry inum' j' => if inum' = inum ∧ j' < j then 0 else f (.entry inum' j')

theorem dropEntries_zero {inum : ℕ} {f : BlockRef → ℕ} : dropEntries inum 0 f = f := by
  funext r
  cases r with
  | addr inum' i => rfl
  | entry inum' j' => exact if_neg (by omega)

theorem dropEntries_succ {inum : ℕ} {f : BlockRef → ℕ} :
    dropEntries inum (j + 1) f = update (dropEntries inum j f) (.entry inum j) 0 := by
  funext r
  cases r with
  | addr inum' i =>
    rw [update_of_ne (by simp)]
    rfl
  | entry inum' j' =>
    rcases eq_or_ne (BlockRef.entry inum' j') (.entry inum j) with heq | hne
    · obtain ⟨rfl, rfl⟩ := BlockRef.entry.inj heq
      rw [update_self]
      exact if_pos ⟨rfl, Nat.lt_succ_self _⟩
    · rw [update_of_ne hne]
      have hiff : (inum' = inum ∧ j' < j + 1) ↔ (inum' = inum ∧ j' < j) := by
        constructor
        · rintro ⟨rfl, hlt⟩
          refine ⟨rfl, Nat.lt_of_le_of_ne (Nat.le_of_lt_succ hlt) ?_⟩
          rintro rfl
          exact hne rfl
        · rintro ⟨rfl, hlt⟩
          exact ⟨rfl, by omega⟩
      simp only [dropEntries, hiff]

/-- The first `j` entries of the indirect block were freed, and only the free map has changed. -/
structure FreedEntries (sb : Superblock) (ip j : ℕ) (s s' : State) : Prop where
  itable : s'.itable = s.itable
  inode : sb.inode s'.disk = sb.inode s.disk
  data : ∀ c, sb.datastart ≤ c → s'.disk c = s.disk c
  owned : Owned (dropEntries (s.inum ip) j (s.refs sb ip)) (sb.marked s'.disk) sb.datastart sb.size

/-- One entry of the indirect block. -/
theorem freeEntry_ends (hsb : sb.Sound) (h : Open sb s ip) (h0 : (s.din ip).addrs ndirect ≠ 0)
    (h₁ : FreedEntries sb ip j s s₁) :
    Ends (fun _ => False) (freeEntry sb ((s.din ip).addrs ndirect) j) s₁ fun _ t s' =>
      t = [] ∧ FreedEntries sb ip (j + 1) s s' := by
  have hind : s.refs sb ip (.addr (s.inum ip) ndirect) = (s.din ip).addrs ndirect := Open.refs_addr
  have hdata : s₁.disk ((s.din ip).addrs ndirect) = s.disk ((s.din ip).addrs ndirect) := by
    rw [← hind] at h0 ⊢
    exact h₁.data _ (h.owned.inside _ h0).1
  have hr : dropEntries (s.inum ip) j (s.refs sb ip) (.entry (s.inum ip) j) =
      word (s.disk ((s.din ip).addrs ndirect)) j := by
    rw [dropEntries, if_neg (by omega), State.refs, refs_entry (by rwa [Open.inodes_self]),
      Open.inodes_self]
  unfold freeEntry
  simp only [ends_bind, ends_get, List.nil_append, hdata]
  split_ifs with hz
  · rw [ends_pure]
    refine ⟨rfl, h₁.itable, h₁.inode, h₁.data, ?_⟩
    rw [dropEntries_succ, ← hz, ← hr, update_eq_self]
    exact h₁.owned
  · have hlt : word (s.disk ((s.din ip).addrs ndirect)) j < sb.size := by
      rw [← hr] at hz ⊢
      exact (h₁.owned.inside _ hz).2
    have hused : sb.marked s₁.disk (word (s.disk ((s.din ip).addrs ndirect)) j) = true := by
      rw [← hr] at hz ⊢
      exact h₁.owned.in_use _ hz
    rw [(bfree_runs hused).ends_iff]
    refine ⟨rfl, h₁.itable, (inode_release hsb).trans h₁.inode, fun c hc => ?_, ?_⟩
    · rw [release_of_le hsb hlt hc, h₁.data c hc]
    · rw [dropEntries_succ]
      exact owned_release h₁.owned hr hz

/-- The references after the indirect block was freed with all its entries. -/
theorem refs_of_noIndirect (h : Open sb s ip) (h₁ : FreedEntries sb ip nindirect s s₁)
    (hs' : s'.disk = (s₁.release sb ((s.din ip).addrs ndirect)).disk)
    (hinodes : s'.inodes sb ip = update (s.inodes sb ip) (s.inum ip)
      ((s.din ip).withAddrs (update (s.din ip).addrs ndirect 0)))
    (hsb : sb.Sound) (h0 : (s.din ip).addrs ndirect ≠ 0) :
    s'.refs sb ip = update (dropEntries (s.inum ip) nindirect (s.refs sb ip))
      (.addr (s.inum ip) ndirect) 0 := by
  have hlt : (s.din ip).addrs ndirect < sb.size := by
    have hind : s.refs sb ip (.addr (s.inum ip) ndirect) = (s.din ip).addrs ndirect :=
      Open.refs_addr
    rw [← hind] at h0 ⊢
    exact (h.owned.inside _ h0).2
  funext r
  rw [State.refs, hinodes]
  cases r with
  | addr inum i =>
    rw [refs_addr]
    rcases eq_or_ne inum (s.inum ip) with rfl | hinum
    · rw [update_self, Dinode.withAddrs_addrs]
      rcases eq_or_ne i ndirect with rfl | hi
      · rw [update_self, update_self]
      · have hne : BlockRef.addr (s.inum ip) i ≠ .addr (s.inum ip) ndirect := by simpa using hi
        rw [update_of_ne hne, dropEntries, Open.refs_addr, update_of_ne hi]
    · have hne : BlockRef.addr inum i ≠ .addr (s.inum ip) ndirect :=
        fun heq => hinum (BlockRef.addr.inj heq).1
      rw [update_of_ne hinum, update_of_ne hne]
      rfl
  | entry inum j =>
    rw [update_of_ne (by simp), dropEntries]
    rcases eq_or_ne inum (s.inum ip) with rfl | hinum
    · have hz : (update (s.inodes sb ip) (s.inum ip) ((s.din ip).withAddrs
          (update (s.din ip).addrs ndirect 0)) (s.inum ip)).addrs ndirect = 0 := by
        rw [update_self, Dinode.withAddrs_addrs, update_self]
      rw [refs_entry_of_zero hz]
      split_ifs with hj
      · rfl
      · rw [State.refs, refs_entry (by rwa [Open.inodes_self]), word_of_le (by omega)]
    · rw [if_neg (fun hj => hinum hj.1)]
      rcases eq_or_ne ((s.inodes sb ip inum).addrs ndirect) 0 with hz | hz
      · rw [refs_entry_of_zero (by rwa [update_of_ne hinum]), State.refs, refs_entry_of_zero hz]
      · have hin : sb.datastart ≤ (s.inodes sb ip inum).addrs ndirect :=
          (h.owned.inside (.addr inum ndirect) hz).1
        rw [refs_entry (by rwa [update_of_ne hinum]), update_of_ne hinum, State.refs,
          refs_entry hz, hs', release_of_le hsb hlt hin, h₁.data _ hin]

/-- The indirect block and its entries. -/
theorem freeIndirect_ends (hsb : sb.Sound) (h : Open sb s ip) :
    Ends (fun _ => False) (freeIndirect sb ip) s fun _ t s' => t = [] ∧ Shrunk sb ip s s' ∧
      (s'.din ip).addrs = update (s.din ip).addrs ndirect 0 := by
  unfold freeIndirect
  simp only [ends_bind, ends_get, List.nil_append]
  split_ifs with h0
  · rw [ends_pure]
    exact ⟨rfl, .refl h, by rw [← h0, update_eq_self]⟩
  · have hstart : FreedEntries sb ip 0 s s :=
      ⟨rfl, rfl, fun _ _ => rfl, by rw [dropEntries_zero]; exact h.owned⟩
    have hloop : Ends (fun _ => False)
        (forRange (freeEntry sb ((s.din ip).addrs ndirect)) 0 nindirect) s
        fun _ t s₁ => [] ++ t = [] ∧ FreedEntries sb ip (0 + nindirect) s s₁ := by
      refine Ends.forRange (fun j t s₁ => t = [] ∧ FreedEntries sb ip j s s₁) ?_ ⟨rfl, hstart⟩
      rintro j t s₁ - - ⟨rfl, h₁⟩
      exact freeEntry_ends hsb h h0 h₁
    rw [ends_bind]
    refine hloop.post ?_
    rintro _ t₁ s₁ ⟨ht₁, h₁⟩
    rw [List.nil_append] at ht₁
    rw [Nat.zero_add] at h₁
    have hind : s.refs sb ip (.addr (s.inum ip) ndirect) = (s.din ip).addrs ndirect :=
      Open.refs_addr
    have hr : dropEntries (s.inum ip) nindirect (s.refs sb ip) (.addr (s.inum ip) ndirect) =
        (s.din ip).addrs ndirect := hind
    have hused : sb.marked s₁.disk ((s.din ip).addrs ndirect) = true := by
      rw [← hr] at h0 ⊢
      exact h₁.owned.in_use _ h0
    have hitable : (s₁.release sb ((s.din ip).addrs ndirect)).itable = s.itable := h₁.itable
    have hdin : (s₁.release sb ((s.din ip).addrs ndirect)).din ip = s.din ip := by
      rw [State.din, hitable]
    have hinode : sb.inode (s₁.release sb ((s.din ip).addrs ndirect)).disk = sb.inode s.disk :=
      (inode_release hsb).trans h₁.inode
    have hinodes : (s₁.release sb ((s.din ip).addrs ndirect)).inodes sb ip = s.inodes sb ip := by
      rw [State.inodes, hinode, hdin, State.inum, hitable]
      rfl
    rw [ends_bind, (bfree_runs hused).ends_iff, ends_modify, State.setAddr, hdin, ht₁]
    refine ⟨rfl, ?_, by rw [State.din_setDin]; rfl⟩
    refine Shrunk.of_setAddr h hitable hinode (owned_release h₁.owned hr h0) (Nat.le_refl _) rfl
      ?_ ?_
    · refine refs_of_noIndirect h h₁ rfl ?_ hsb h0
      rw [Open.inodes_setDin, hinodes, State.inum, hitable]
    · intro r hr'
      have hne : r ≠ .addr (s.inum ip) ndirect := by
        rintro rfl
        exact hr' rfl
      rw [update_of_ne hne]
      cases r with
      | addr inum i => rfl
      | entry inum j => exact if_neg fun hj => hr' hj.1

/-- The inode without its blocks. -/
def Dinode.cleared (x : Dinode) : Dinode := (x.withAddrs fun _ => 0).withSize 0

/-- **`itrunc` frees the blocks of an inode.** -/
theorem itrunc_ends (hsb : sb.Sound) (h : Consistent sb s) (hl : Locked s ip) :
    Ends (fun _ => False) (itrunc sb ip) s fun _ t s' => t = [] ∧ Consistent sb s' ∧
      s'.itable = update s.itable ip ((s.itable ip).withDin (s.din ip).cleared) := by
  have hopen := h.opened hl
  have hloop : Ends (fun _ => False) (forRange (freeAddr sb ip) 0 ndirect) s fun _ t s₁ =>
      [] ++ t = [] ∧ Shrunk sb ip s s₁ ∧ ∀ k < 0 + ndirect, (s₁.din ip).addrs k = 0 := by
    refine Ends.forRange
      (fun i t s₁ => t = [] ∧ Shrunk sb ip s s₁ ∧ ∀ k < i, (s₁.din ip).addrs k = 0) ?_
      ⟨rfl, .refl hopen, fun k hk => by omega⟩
    rintro i t s₁ - hi ⟨rfl, h₁, hzero⟩
    refine (freeAddr_ends hsb h₁.opened (by omega)).post ?_
    rintro - t₂ s₂ ⟨rfl, h₂, haddrs⟩
    refine ⟨rfl, h₁.trans h₂, fun k hk => ?_⟩
    rw [haddrs]
    rcases eq_or_ne k i with rfl | hne
    · exact update_self ..
    · rw [update_of_ne hne]
      exact hzero k (by omega)
  unfold itrunc
  rw [ends_bind]
  refine hloop.post fun _ t₁ s₁ ⟨ht₁, h₁, hzero⟩ => ?_
  rw [List.nil_append] at ht₁
  rw [ends_bind]
  refine (freeIndirect_ends hsb h₁.opened).post ?_
  rintro - t₂ s₂ ⟨rfl, h₂, haddrs⟩
  have hs₂ := h₁.trans h₂
  have hcleared : (s₂.din ip).withSize 0 = (s.din ip).cleared := by
    have hall : (s₂.din ip).addrs = fun _ => 0 := by
      funext k
      rw [haddrs]
      rcases Nat.lt_trichotomy k ndirect with hlt | rfl | hgt
      · rw [update_of_ne (by omega)]
        exact hzero k (by omega)
      · exact update_self ..
      · rw [update_of_ne (by omega)]
        exact h₁.opened.fits.addrs_end k hgt
    have hdin : s₂.din ip = (s.din ip).withAddrs (s₂.din ip).addrs := by
      rw [State.din, hs₂.entry]
      rfl
    rw [hdin, hall]
    rfl
  simp only [ends_iupdate, ends_bind, ends_modify, State.setSize, List.append_nil, hcleared, ht₁]
  -- the state before `iupdate`
  have hfits : (s.din ip).cleared.Fits :=
    ⟨hopen.fits.type, hopen.fits.major, hopen.fits.minor, hopen.fits.nlink, Nat.two_pow_pos 32,
      fun _ => Nat.two_pow_pos 32, fun _ _ => rfl⟩
  obtain ⟨h₃, hrefs₃⟩ := hs₂.opened.setDin hfits (by rw [← hcleared]; rfl)
  have hitable : (s₂.setDin ip (s.din ip).cleared).itable =
      update s.itable ip ((s.itable ip).withDin (s.din ip).cleared) := by
    rw [State.setDin_itable, hs₂.itable, update_idem, update_self]
    rfl
  refine ⟨trivial, ?_, hitable⟩
  refine h.closed hsb hl h₃ ?_ hs₂.inode ?_ ?_ rfl ?_ ?_ ?_
  · rw [State.inum_setDin, hs₂.inum]
  · intro r hr
    rw [hrefs₃, hs₂.others r hr]
  · intro bn hbn
    rw [State.din_setDin] at hbn
    exact absurd hbn (Nat.not_lt_zero _)
  · intro ip' hip'
    exact (congrFun hitable ip').trans (update_of_ne hip' _ _)
  · exact (State.inum_setDin ..).trans hs₂.inum
  · rintro - -
    rw [State.din_setDin]
    exact ⟨State.din_setDin .., (h.valid ip hl.ref hl.valid).2.2⟩

end Truncate

/-! ### The inode table -/

section Table

variable {sb : Superblock} {s s' : State} {ip inum : ℕ}

/-- **An entry of the table changes.** -/
theorem Consistent.setInode {x : Inode} (h : Consistent sb s) (hip : 0 < x.ref → ip < ninode)
    (hvalid : 0 < x.ref → x.valid = true →
      x.inum < sb.ninodes ∧ x.din = sb.inode s.disk x.inum ∧ x.din.type ≠ 0)
    (hdistinct : 0 < x.ref → ∀ ip' ≠ ip, 0 < (s.itable ip').ref → s.inum ip' ≠ x.inum) :
    Consistent sb (s.setInode ip x) where
  owned := h.owned
  covered := h.covered
  valid := by
    intro ip' href hval
    rw [State.inum, State.din, State.setInode_itable] at *
    rcases eq_or_ne ip' ip with rfl | hne
    · rw [update_self] at *
      exact hvalid href hval
    · rw [update_of_ne hne] at *
      exact h.valid ip' href hval
  distinct := by
    intro ip₁ ip₂ href₁ href₂ heq
    rw [State.inum, State.inum] at heq
    rw [State.setInode_itable] at *
    rcases eq_or_ne ip₁ ip with rfl | h₁
    · rcases eq_or_ne ip₂ ip₁ with rfl | h₂
      · rfl
      · rw [update_self] at heq href₁
        rw [update_of_ne h₂] at heq href₂
        exact absurd heq.symm (hdistinct href₁ ip₂ h₂ href₂)
    · rcases eq_or_ne ip₂ ip with rfl | h₂
      · rw [update_self] at heq href₂
        rw [update_of_ne h₁] at heq href₁
        exact absurd heq (hdistinct href₂ ip₁ h₁ href₁)
      · rw [update_of_ne h₁] at heq href₁
        rw [update_of_ne h₂] at heq href₂
        exact h.distinct ip₁ ip₂ href₁ href₂ heq
  beyond := by
    intro ip' hge
    rw [State.setInode_itable]
    rcases eq_or_ne ip' ip with rfl | hne
    · rw [update_self]
      by_contra hpos
      have := hip (by omega)
      omega
    · rw [update_of_ne hne]
      exact h.beyond ip' hge

/-- The number of references to an entry in use changes. -/
theorem Consistent.withRef {ref : ℕ} (h : Consistent sb s) (hip : 0 < (s.itable ip).ref) :
    Consistent sb (s.setInode ip ((s.itable ip).withRef ref)) := by
  refine h.setInode ?_ ?_ ?_
  · rintro -
    by_contra hge
    rw [h.beyond ip (by omega)] at hip
    omega
  · intro _ hval
    exact h.valid ip hip hval
  · intro _ ip' hne href heq
    exact hne (h.distinct ip' ip href hip heq)

/-- What the loop of `iget` finds. -/
theorem igetScan_spec {itable : ℕ → Inode} {k : ℕ} {empty : Option ℕ}
    (hempty : ∀ ip', empty = some ip' → ip' < ip ∧ (itable ip').ref = 0)
    (hfull : empty = none → ∀ ip' < ip, 0 < (itable ip').ref)
    (hbefore : ∀ ip' < ip, 0 < (itable ip').ref → (itable ip').inum ≠ inum) :
    match igetScan itable inum ip k empty with
    | .inl ip' => ip' < ip + k ∧ 0 < (itable ip').ref ∧ (itable ip').inum = inum
    | .inr none => ∀ ip' < ip + k, 0 < (itable ip').ref ∧ (itable ip').inum ≠ inum
    | .inr (some ip') => ip' < ip + k ∧ (itable ip').ref = 0 ∧
        ∀ ip'' < ip + k, 0 < (itable ip'').ref → (itable ip'').inum ≠ inum := by
  induction k generalizing ip empty with
  | zero =>
    rw [igetScan]
    cases empty with
    | none => exact fun ip' hip' => ⟨hfull rfl ip' hip', hbefore ip' hip' (hfull rfl ip' hip')⟩
    | some ip' =>
      obtain ⟨hlt, href⟩ := hempty ip' rfl
      exact ⟨hlt, href, hbefore⟩
  | succ k ih =>
    rw [igetScan]
    split_ifs with hfound hfree
    · exact ⟨by omega, hfound⟩
    · rw [show ip + (k + 1) = ip + 1 + k by omega]
      refine ih ?_ ?_ ?_
      · intro ip' heq
        cases heq
        exact ⟨Nat.lt_succ_self _, hfree.2⟩
      · intro heq
        cases heq
      · intro ip' hip' href
        rcases Nat.lt_succ_iff_lt_or_eq.1 hip' with hlt | rfl
        · exact hbefore ip' hlt href
        · exact fun heq => hfound ⟨href, heq⟩
    · rw [show ip + (k + 1) = ip + 1 + k by omega]
      refine ih ?_ ?_ ?_
      · intro ip' heq
        obtain ⟨hlt, href⟩ := hempty ip' heq
        exact ⟨by omega, href⟩
      · intro heq ip' hip'
        rcases Nat.lt_succ_iff_lt_or_eq.1 hip' with hlt | rfl
        · exact hfull heq ip' hlt
        · exact Nat.pos_of_ne_zero fun h0 => hfree ⟨heq, h0⟩
      · intro ip' hip' href
        rcases Nat.lt_succ_iff_lt_or_eq.1 hip' with hlt | rfl
        · exact hbefore ip' hlt href
        · exact fun heq => hfound ⟨href, heq⟩

/-- The whole loop. -/
theorem igetScan_start (itable : ℕ → Inode) (inum : ℕ) :
    match igetScan itable inum 0 ninode none with
    | .inl ip => ip < ninode ∧ 0 < (itable ip).ref ∧ (itable ip).inum = inum
    | .inr none => ∀ ip < ninode, 0 < (itable ip).ref ∧ (itable ip).inum ≠ inum
    | .inr (some ip) => ip < ninode ∧ (itable ip).ref = 0 ∧
        ∀ ip' < ninode, 0 < (itable ip').ref → (itable ip').inum ≠ inum := by
  have hscan := @igetScan_spec 0 inum itable ninode none (fun _ h => by cases h)
    (fun _ _ h => absurd h (Nat.not_lt_zero _)) (fun _ h => absurd h (Nat.not_lt_zero _))
  rwa [Nat.zero_add] at hscan

/-- **`iget`** finds the entry with the inode, or takes a free one, or there is none. -/
theorem iget_ends {E : Fault → Prop} {Q : ℕ → List Event → State → Prop}
    (hfound : ∀ ip < ninode, 0 < (s.itable ip).ref → s.inum ip = inum →
      Q ip [] (s.setInode ip ((s.itable ip).withRef ((s.itable ip).ref + 1))))
    (hfree : ∀ ip < ninode, (s.itable ip).ref = 0 →
      (∀ ip' < ninode, 0 < (s.itable ip').ref → s.inum ip' ≠ inum) →
      Q ip [] (s.setInode ip ⟨inum, 1, false, s.din ip⟩))
    (hnone : (∀ ip < ninode, 0 < (s.itable ip).ref ∧ s.inum ip ≠ inum) → E .igetNoInodes) :
    Ends E (iget inum) s Q := by
  have hscan := igetScan_start s.itable inum
  unfold iget
  simp only [ends_bind, ends_get, List.nil_append]
  split
  next ip heq =>
      rw [heq] at hscan
      obtain ⟨hlt, href, hinum⟩ := hscan
      simpa [idup] using hfound ip hlt href hinum
  next heq =>
      rw [heq] at hscan
      exact hnone hscan
  next ip heq =>
      rw [heq] at hscan
      obtain ⟨hlt, href, hnot⟩ := hscan
      simpa using hfree ip hlt href hnot

theorem freeInode_eq_some {disk : Disk} {k x : ℕ} (h : freeInode sb disk inum k = some x) :
    x < sb.ninodes ∧ (sb.inode disk x).type = 0 := by
  induction k generalizing inum with
  | zero => cases h
  | succ k ih =>
    rw [freeInode] at h
    split_ifs at h with hlt hfree
    · cases h
      exact ⟨hlt, by rwa [Superblock.inode_of_lt hlt]⟩
    · exact ih h

/-- A free inode is initialised on the disk. -/
theorem Consistent.initInode {type : ℕ} (hsb : sb.Sound) (h : Consistent sb s)
    (hinum : inum < sb.ninodes) (hfree : (sb.inode s.disk inum).type = 0) (htype : type < 2 ^ 16) :
    Consistent sb (s.setDinode sb inum (Dinode.zero.withType type)) := by
  have hfits : (Dinode.zero.withType type).Fits := { Dinode.zero_fits with type := htype }
  have hinode := Superblock.inode_setDinode (s := s) hinum hfits
  have hpos : 0 < sb.size := Nat.lt_of_lt_of_le h.owned.pos h.owned.le
  have hlt := hsb.bmapstart_lt hpos
  -- the references of the inode are forgotten
  have hrefs : ∀ r, refs (s.setDinode sb inum (Dinode.zero.withType type)).disk
      (sb.inode (s.setDinode sb inum (Dinode.zero.withType type)).disk) r =
      if r.inum = inum then 0 else refs s.disk (sb.inode s.disk) r := by
    intro r
    have hother : refs (s.setDinode sb inum (Dinode.zero.withType type)).disk (sb.inode s.disk) =
        refs s.disk (sb.inode s.disk) :=
      refs_congr fun inum' h0 => setDinode_of_le hsb hinum (by
        have := (h.owned.inside (.addr inum' ndirect) h0).1
        rw [refs_addr] at this
        omega)
    rw [hinode, ← hother]
    cases r with
    | addr inum' i =>
      change _ = if inum' = inum then _ else _
      rw [refs_addr]
      split_ifs with heq
      · rw [heq, update_self]
        rfl
      · rw [update_of_ne heq, refs_addr]
    | entry inum' j =>
      change _ = if inum' = inum then _ else _
      split_ifs with heq
      · exact refs_entry_of_zero (by rw [heq, update_self]; rfl)
      · simp only [refs, update_of_ne heq]
  refine ⟨?_, ?_, ?_, h.distinct, h.beyond⟩
  · refine h.owned.drop (fun r => ?_) fun c hc hused => ?_
    · rw [hrefs]
      split_ifs
      · exact .inr rfl
      · exact .inl rfl
    · rwa [hsb.marked_congr hc fun x hx _ => setDinode_of_le hsb hinum hx]
  · intro inum' bn hbn
    rw [hrefs, blockRef_inum]
    rw [hinode] at hbn
    rcases eq_or_ne inum' inum with rfl | hne
    · rw [update_self] at hbn
      exact absurd hbn (Nat.not_lt_zero _)
    · rw [update_of_ne hne] at hbn
      rw [if_neg hne]
      exact h.covered inum' bn hbn
  · intro ip href hval
    obtain ⟨hlt', hdin, htype'⟩ := h.valid ip href hval
    have hne : s.inum ip ≠ inum := by
      intro heq
      rw [hdin, heq] at htype'
      exact htype' hfree
    refine ⟨hlt', ?_, htype'⟩
    rw [hinode]
    exact hdin.trans (update_of_ne hne _ _).symm

end Table

/-! ### The calls -/

/-- The calls, each on inodes to which the caller has a reference; those that work on the contents
of an inode lock it first.  `ialloc` and `iget` give references, and `setNlink` is what the system
calls that make and remove links do in between. -/
inductive Action
  | iget (inum : ℕ)
  | idup (ip : ℕ)
  | ialloc (type : ℕ)
  | iput (ip : ℕ)
  | itrunc (ip : ℕ)
  | setNlink (ip nlink : ℕ)
  | readi (ip : ℕ) (user : Option ℕ) (off n : ℕ)
  | writei (ip : ℕ) (user : Option ℕ) (src : ℕ → Byte) (off n : ℕ)

def step (sb : Superblock) : Action → Kernel Unit
  | .iget inum => do
    let _ ← iget inum
    pure ()
  | .idup ip => idup ip
  | .ialloc type => do
    let _ ← ialloc sb type
    pure ()
  | .iput ip => iput sb ip
  | .itrunc ip => do
    ilock sb ip
    itrunc sb ip
  | .setNlink ip nlink => do
    ilock sb ip
    setNlink sb ip nlink
  | .readi ip user off n => do
    ilock sb ip
    let _ ← readi sb ip user off n
    pure ()
  | .writei ip user src off n => do
    ilock sb ip
    let _ ← writei sb ip user src off n
    pure ()

/-- The numbers that are passed are numbers of inodes, references that the caller has, and numbers
of type `uint`. -/
def Allowed (sb : Superblock) (s : State) : Action → Prop
  | .iget inum => inum < sb.ninodes
  | .idup ip => 0 < (s.itable ip).ref
  | .iput ip => 0 < (s.itable ip).ref
  | .readi _ _ off n => off < 2 ^ 32 ∧ n < 2 ^ 32
  | .writei _ _ _ off n => off < 2 ^ 32 ∧ n < 2 ^ 32
  | _ => True

/-- The kernel has just started, and no inode is in the table. -/
def State.boot (disk : Disk) (full : ℕ → Bool) : State where
  disk := disk
  itable := fun _ => ⟨0, 0, false, .zero⟩
  full := full
  clock := 0

/-- The block that a reference is to, between two calls. -/
def State.owner (sb : Superblock) (s : State) : BlockRef → ℕ := Fs.refs s.disk (sb.inode s.disk)

/-- No block has two owners, every block with an owner is in use, freeing does not panic, and no
call allocates a block that has an owner. -/
structure OneOwner (sb : Superblock) (s : State) : Prop where
  unique : ∀ r r', s.owner sb r ≠ 0 → s.owner sb r = s.owner sb r' → r = r'
  inside : ∀ r, s.owner sb r ≠ 0 → sb.datastart ≤ s.owner sb r ∧ s.owner sb r < sb.size
  marked : ∀ r, s.owner sb r ≠ 0 → sb.marked s.disk (s.owner sb r) = true
  frees : ∀ a, Allowed sb s a → ¬ Fails (step sb a) s .freeingFreeBlock
  fresh : ∀ a t s', Allowed sb s a → Runs (step sb a) s () t s' →
    ∀ b, .alloc b ∈ t → ∀ r, s.owner sb r ≠ b

section Calls

variable {sb : Superblock} {s s₁ s' : State} {ip inum : ℕ} {t : List Event} {a : Action}

/-- The entries of the table hold inodes of the disk. -/
def Numbered (sb : Superblock) (s : State) : Prop :=
  ∀ ip, 0 < (s.itable ip).ref → s.inum ip < sb.ninodes

/-- What every call keeps, with what it allocates. -/
structure Kept (sb : Superblock) (s : State) (t : List Event) (s' : State) : Prop where
  consistent : Consistent sb s'
  numbered : Numbered sb s'
  fresh : ∀ b, .alloc b ∈ t → ∀ r, s.owner sb r ≠ b

/-- The faults that may happen: the table is full, or the caller has no reference to the inode, or
the inode is free. -/
def Tolerated (e : Fault) : Prop := e = .igetNoInodes ∨ e = .ilock ∨ e = .ilockNoType

theorem Numbered.setInode {x : Inode} (h : Numbered sb s) (hx : 0 < x.ref → x.inum < sb.ninodes) :
    Numbered sb (s.setInode ip x) := by
  intro ip' href
  rw [State.inum, State.setInode_itable] at *
  rcases eq_or_ne ip' ip with rfl | hne
  · rw [update_self] at *
    exact hx href
  · rw [update_of_ne hne] at *
    exact h ip' href

/-- The entries of the table that are in use hold the inodes that they held. -/
theorem Numbered.of_itable {y : Dinode} (h : Numbered sb s)
    (hitable : s'.itable = update s.itable ip ((s.itable ip).withDin y)) : Numbered sb s' := by
  intro ip' href
  rw [State.inum, hitable] at *
  rcases eq_or_ne ip' ip with rfl | hne
  · rw [update_self] at *
    exact h ip' href
  · rw [update_of_ne hne] at *
    exact h ip' href

theorem iget_kept (h : Consistent sb s) (hn : Numbered sb s) (hinum : inum < sb.ninodes) :
    Ends Tolerated (iget inum) s fun _ t s' => t = [] ∧ Consistent sb s' ∧ Numbered sb s' := by
  refine iget_ends ?_ ?_ fun _ => .inl rfl
  · intro ip hip href heq
    exact ⟨rfl, h.withRef href, hn.setInode fun _ => hn ip href⟩
  · intro ip hip href hnot
    refine ⟨rfl, h.setInode (fun _ => hip) (fun _ hval => by cases hval) ?_, hn.setInode
      fun _ => hinum⟩
    intro _ ip' _ href'
    refine hnot ip' ?_ href'
    by_contra hge
    rw [h.beyond ip' (by omega)] at href'
    omega

theorem ialloc_kept {type : ℕ} (hsb : sb.Sound) (h : Consistent sb s) (hn : Numbered sb s) :
    Ends Tolerated (ialloc sb type) s fun _ t s' => Kept sb s t s' := by
  unfold ialloc
  simp only [ends_bind, ends_get, List.nil_append]
  split
  next inum heq =>
      obtain ⟨hinum, hfree⟩ := freeInode_eq_some heq
      rw [ends_bind, ends_modify]
      have h₁ := h.initInode hsb hinum hfree (Nat.mod_lt type (Nat.two_pow_pos 16))
      have hn₁ : Numbered sb (s.setDinode sb inum (Dinode.zero.withType (type % 2 ^ 16))) := hn
      rw [ends_bind]
      refine (iget_kept h₁ hn₁ hinum).post ?_
      rintro ip t₂ s₂ ⟨rfl, h₂, hn₂⟩
      rw [ends_pure]
      exact ⟨h₂, hn₂, fun b hb => by cases hb⟩
  next =>
      rw [ends_bind, ends_emit, ends_pure]
      exact ⟨h, hn, fun b hb => by simp at hb⟩

/-- **`ilock`** reads the inode from the disk if this was not done before. -/
theorem ilock_ends (h : Consistent sb s) (hn : Numbered sb s) :
    Ends Tolerated (ilock sb ip) s fun _ t s' =>
      t = [] ∧ Consistent sb s' ∧ Numbered sb s' ∧ Locked s' ip ∧ s'.disk = s.disk := by
  unfold ilock
  simp only [ends_bind, ends_get, List.nil_append]
  split_ifs with href hval
  · exact .inr (.inl rfl)
  · rw [ends_pure]
    exact ⟨rfl, h, hn, ⟨by omega, hval⟩, rfl⟩
  · have hpos : 0 < (s.itable ip).ref := by omega
    have hinum := hn ip hpos
    have hip : ip < ninode := by
      by_contra hge
      rw [h.beyond ip (by omega)] at hpos
      omega
    unfold iload
    simp only [ends_bind, ends_get, ends_modify, List.nil_append]
    split_ifs with htype
    · exact .inr (.inr rfl)
    · rw [ends_pure]
      refine ⟨rfl, h.setInode (fun _ => hip) ?_ ?_, hn.setInode fun _ => hinum, ⟨?_, ?_⟩, rfl⟩
      · rintro - -
        exact ⟨hinum, (Superblock.inode_of_lt hinum).symm, htype⟩
      · intro _ ip' hne href' heq
        exact hne (h.distinct ip' ip href' hpos heq)
      · rw [State.setInode_itable, update_self]
        exact hpos
      · rw [State.setInode_itable, update_self]

/-- A call on a locked inode. -/
theorem locked_kept {α : Type} {x : Kernel α} (h : Consistent sb s) (hn : Numbered sb s)
    (hx : ∀ s₁, Consistent sb s₁ → Numbered sb s₁ → Locked s₁ ip →
      Ends Tolerated x s₁ fun _ t s' => Kept sb s₁ t s') :
    Ends Tolerated (do ilock sb ip; x) s fun _ t s' => Kept sb s t s' := by
  rw [ends_bind]
  refine (ilock_ends h hn).post ?_
  rintro - t₁ s₁ ⟨rfl, h₁, hn₁, hl₁, hdisk⟩
  refine (hx s₁ h₁ hn₁ hl₁).post fun _ t₂ s₂ hk => ⟨hk.consistent, hk.numbered, ?_⟩
  intro b hb r
  have hfresh := hk.fresh b hb r
  rwa [State.owner, hdisk] at hfresh

theorem ifree_ends (hsb : sb.Sound) (h : Consistent sb s) (hl : Locked s ip) :
    Ends (fun _ => False) (ifree sb ip) s fun _ t s' => t = [] ∧ Consistent sb s' ∧
      s'.itable = update s.itable ip
        ((s.itable ip).withDin ((s.din ip).cleared.withType 0)).invalidate := by
  unfold ifree
  rw [ends_bind]
  refine (itrunc_ends hsb h hl).post ?_
  rintro - t₁ s₁ ⟨rfl, h₁, hitable⟩
  have hentry : s₁.itable ip = (s.itable ip).withDin (s.din ip).cleared :=
    (congrFun hitable ip).trans (update_self ..)
  have hl₁ : Locked s₁ ip := by
    refine ⟨?_, ?_⟩
    · rw [hentry]
      exact hl.ref
    · rw [hentry]
      exact hl.valid
  have hdin : s₁.din ip = (s.din ip).cleared := by
    rw [State.din, hentry]
    rfl
  have hfits : ((s.din ip).cleared.withType 0).Fits := by
    have := (h₁.opened hl₁).fits
    rw [hdin] at this
    exact { this with type := Nat.two_pow_pos 16 }
  obtain ⟨h₂, hrefs₂⟩ := (h₁.opened hl₁).setDin hfits (by rw [hdin]; rfl)
  simp only [ends_iupdate, ends_bind, ends_modify, hdin]
  refine ⟨rfl, ?_, ?_⟩
  · refine h₁.closed hsb hl₁ h₂ (State.inum_setDin ..) rfl (fun r _ => by rw [hrefs₂]) ?_ rfl ?_
      ?_ ?_
    · intro bn hbn
      rw [State.din_setDin] at hbn
      exact absurd hbn (Nat.not_lt_zero _)
    · intro ip' hip'
      rw [State.setInode_itable, update_of_ne hip']
      exact update_of_ne hip' _ _
    · rw [State.inum, State.setInode_itable, update_self]
      exact State.inum_setDin ..
    · intro _ hval
      rw [State.setInode_itable, update_self] at hval
      cases hval
  · rw [State.setInode_itable]
    change update (update s₁.itable ip _) ip
      (Inode.invalidate (update s₁.itable ip _ ip)) = _
    rw [update_idem, update_self, hitable, update_idem, update_self]
    rfl

section

variable (hsb : sb.Sound) (h : Consistent sb s) (hn : Numbered sb s)

include hsb h hn

/-- **`iput`** drops a reference, and frees the inode if it was the last one. -/
theorem iput_kept (href : 0 < (s.itable ip).ref) :
    Ends Tolerated (iput sb ip) s fun _ t s' => Kept sb s t s' := by
  unfold iput
  simp only [ends_bind, ends_get, List.nil_append]
  split_ifs with hlast
  · rw [ends_bind]
    refine (ifree_ends hsb h ⟨href, hlast.2.1⟩).total.post ?_
    rintro - t₁ s₁ ⟨rfl, h₁, hitable⟩
    have hentry := (congrFun hitable ip).trans (update_self ..)
    have hn₁ : Numbered sb s₁ := by
      intro ip' href'
      rw [State.inum, hitable] at *
      rcases eq_or_ne ip' ip with rfl | hne
      · rw [update_self] at *
        exact hn ip' href'
      · rw [update_of_ne hne] at *
        exact hn ip' href'
    have href₁ : 0 < (s₁.itable ip).ref := by
      rw [hentry]
      exact href
    rw [unref, ends_modify]
    exact ⟨h₁.withRef href₁, hn₁.setInode fun _ => hn₁ ip href₁, fun b hb => by cases hb⟩
  · rw [unref, ends_modify]
    exact ⟨h.withRef href, hn.setInode fun _ => hn ip href, fun b hb => by cases hb⟩

theorem setNlink_kept {nlink : ℕ} (hl : Locked s ip) :
    Ends Tolerated (setNlink sb ip nlink) s fun _ t s' => Kept sb s t s' := by
  have hopen := h.opened hl
  have hfits : ((s.din ip).withNlink (nlink % 2 ^ 16)).Fits :=
    { hopen.fits with nlink := Nat.mod_lt _ (Nat.two_pow_pos 16) }
  obtain ⟨h₁, hrefs₁⟩ := hopen.setDin hfits rfl
  simp only [setNlink, ends_iupdate, ends_bind, ends_modify]
  refine ⟨?_, hn.of_itable rfl, fun b hb => by cases hb⟩
  refine h.closed hsb hl h₁ (State.inum_setDin ..) rfl (fun r _ => by rw [hrefs₁]) ?_ rfl ?_
    (State.inum_setDin ..) ?_
  · intro bn hbn
    rw [State.din_setDin] at hbn
    rw [hrefs₁]
    exact h.covered_opened hl hbn
  · intro ip' hip'
    exact update_of_ne hip' _ _
  · rintro - -
    rw [State.din_setDin]
    exact ⟨State.din_setDin .., (h.valid ip hl.ref hl.valid).2.2⟩

theorem writei_kept {user : Option ℕ} {src : ℕ → Byte} {off n : ℕ} (hl : Locked s ip)
    (hoff : off < 2 ^ 32) (hlt : n < 2 ^ 32) :
    Ends Tolerated (writei sb ip user src off n) s fun _ t s' => Kept sb s t s' := by
  by_cases hbad : (s.din ip).size < off ∨ 2 ^ 32 ≤ off + n ∨ maxfile * bsize < off + n
  · rw [(writei_refused hoff hlt hbad).ends_iff]
    exact ⟨h, hn, fun b hb => by cases hb⟩
  · refine (writei_ends hsb h hl (by omega) (by omega)).total.post ?_
    rintro r t s' ⟨tot, -, hw⟩
    exact ⟨hw.consistent, hn.of_itable hw.itable, hw.fresh⟩

/-- **Every call keeps the file system in order.** -/
theorem step_kept (ha : Allowed sb s a) :
    Ends Tolerated (step sb a) s fun _ t s' => Kept sb s t s' := by
  cases a with
  | iget inum =>
    rw [step, ends_bind]
    refine (iget_kept h hn ha).post ?_
    rintro ip t s' ⟨rfl, h', hn'⟩
    rw [ends_pure]
    exact ⟨h', hn', fun b hb => by cases hb⟩
  | idup ip =>
    rw [step, idup, ends_modify]
    exact ⟨h.withRef ha, hn.setInode fun _ => hn ip ha, fun b hb => by cases hb⟩
  | ialloc type =>
    rw [step, ends_bind]
    refine (ialloc_kept hsb h hn).post fun _ t s' hk => ?_
    rwa [ends_pure, List.append_nil]
  | iput ip => exact iput_kept hsb h hn ha
  | itrunc ip =>
    refine locked_kept h hn fun s₁ h₁ hn₁ hl₁ => (itrunc_ends hsb h₁ hl₁).total.post ?_
    rintro - t s' ⟨rfl, h', hitable⟩
    exact ⟨h', hn₁.of_itable hitable, fun b hb => by cases hb⟩
  | setNlink ip nlink => exact locked_kept h hn fun s₁ h₁ hn₁ hl₁ => setNlink_kept hsb h₁ hn₁ hl₁
  | readi ip user off n =>
    refine locked_kept h hn fun s₁ h₁ hn₁ hl₁ => ?_
    rw [ends_bind]
    refine (readi_ends h₁ hl₁ ha.2).total.post ?_
    rintro r t s' ⟨rfl, rfl⟩
    rw [ends_pure]
    exact ⟨h₁, hn₁, fun b hb => by cases hb⟩
  | writei ip user src off n =>
    refine locked_kept h hn fun s₁ h₁ hn₁ hl₁ => ?_
    rw [ends_bind]
    refine (writei_kept hsb h₁ hn₁ hl₁ ha.1 ha.2).post fun r t s' hk => ?_
    rwa [ends_pure, List.append_nil]

end

theorem reach_kept {disk : Disk} {full : ℕ → Bool} {h : List Action} (hsb : sb.Sound)
    (h₀ : Consistent sb (.boot disk full))
    (hrun : Reach (step sb) (fun _ => Allowed sb) (.boot disk full) h s) :
    Consistent sb s ∧ Numbered sb s := by
  refine hrun.inv (fun _ s => Consistent sb s ∧ Numbered sb s) ⟨h₀, fun ip href => ?_⟩ ?_
  · cases href
  · rintro _ s a r s' ⟨hc, hn⟩ ha hret
    obtain ⟨t, hrun⟩ := hret.runs
    have hk := hrun.ends_iff.1 (step_kept hsb hc hn ha)
    exact ⟨hk.consistent, hk.numbered⟩

/-- **Every block has one owner**, in every state that the calls lead to from a disk that is in
order. -/
theorem blocks_have_one_owner {disk : Disk} {full : ℕ → Bool} {h : List Action} (hsb : sb.Sound)
    (h₀ : Consistent sb (.boot disk full))
    (hrun : Reach (step sb) (fun _ => Allowed sb) (.boot disk full) h s) : OneOwner sb s := by
  obtain ⟨hc, hn⟩ := reach_kept hsb h₀ hrun
  refine ⟨hc.owned.unique, hc.owned.inside, hc.owned.in_use, ?_, ?_⟩
  · intro a ha hfail
    rcases hfail.ends_iff.1 (step_kept hsb hc hn ha) with he | he | he
    · cases he
    · cases he
    · cases he
  · intro a t s' ha hrun b hb
    exact (hrun.ends_iff.1 (step_kept hsb hc hn ha)).fresh b hb

/-- One block of inodes, one of the free map, and four of data. -/
def smallSb : Superblock := { tinySb with size := 6, nblocks := 4, ninodes := 3 }

/-- No inode is in use, and the blocks of data are free. -/
def smallDisk : Disk := update (fun _ => .zero) 1 ((Bytes.zero.setBit 0).setBit 1)

theorem consistent_smallDisk : Consistent smallSb (.boot smallDisk fun _ => false) := by
  have hinode : ∀ inum, smallSb.inode smallDisk inum = .zero := by
    intro inum
    rcases Nat.lt_or_ge inum smallSb.ninodes with hlt | hge
    · rw [Superblock.inode_of_lt hlt]
      match inum, hlt with
      | 0, _ => exact Dinode.read_zero
      | 1, _ => exact Dinode.read_zero
      | 2, _ => exact Dinode.read_zero
    · exact Superblock.inode_of_le hge
  refine ⟨.of_none (fun r => ?_) (by decide) (by decide) (by decide +kernel), ?_, nofun, nofun,
    fun _ _ => rfl⟩
  · cases r with
    | addr inum i => exact congrArg (fun x => x.addrs i) (hinode inum)
    | entry inum j => exact refs_entry_of_zero (congrArg (fun x => x.addrs ndirect) (hinode inum))
  · intro inum bn hbn
    have hsize : (smallSb.inode smallDisk inum).size = 0 := congrArg Dinode.size (hinode inum)
    exact absurd hbn (by simp [State.boot, hsize])

instance (s : State) : DecidablePred (Allowed sb s)
  | .iget _ | .idup _ | .iput _ => inferInstanceAs (Decidable (_ < _))
  | .readi .. | .writei .. => inferInstanceAs (Decidable (_ ∧ _))
  | .ialloc _ | .itrunc _ | .setNlink .. => inferInstanceAs (Decidable True)

/-- Two files are made, and three bytes are written to each. -/
def twoFiles : List Action :=
  [.ialloc tFile, .ialloc tFile, .writei 0 none (fun _ => 7) 0 3, .writei 1 none (fun _ => 9) 0 3]

/-- Each file owns a block, until the first one is truncated. -/
theorem blocks_have_one_owner_two : ∃ s s',
    Reach (step smallSb) (fun _ => Allowed smallSb) (.boot smallDisk fun _ => false)
      twoFiles.reverse s ∧ OneOwner smallSb s ∧
    [s.owner smallSb (.addr 1 0), s.owner smallSb (.addr 2 0)] = [2, 3] ∧
    Reach (step smallSb) (fun _ => Allowed smallSb) (.boot smallDisk fun _ => false)
      (.itrunc 0 :: twoFiles.reverse) s' ∧ OneOwner smallSb s' ∧
    [s'.owner smallSb (.addr 1 0), s'.owner smallSb (.addr 2 0)] = [0, 3] ∧
    smallSb.marked s'.disk 2 = false := by
  have hsb : smallSb.Sound := ⟨by decide, by decide, by decide⟩
  have hr : Reach (step smallSb) (fun _ => Allowed smallSb) (.boot smallDisk fun _ => false)
      twoFiles.reverse _ := .of_allows_start (by decide +kernel)
  have hr' : Reach (step smallSb) (fun _ => Allowed smallSb) (.boot smallDisk fun _ => false)
      (twoFiles ++ [Action.itrunc 0]).reverse _ := .of_allows_start (by decide +kernel)
  exact ⟨_, _, hr, blocks_have_one_owner hsb consistent_smallDisk hr, by decide +kernel, hr',
    blocks_have_one_owner hsb consistent_smallDisk hr', by decide +kernel, by decide +kernel⟩

end Calls

end RaidSystem.Fs
