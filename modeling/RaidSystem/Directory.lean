/-
**A directory is a finite map.**

A directory is a file of entries of sixteen bytes, each with the number of an inode and a name.
Names are compared on their first fourteen characters up to the first NUL, and stored without a NUL
if they have fourteen characters or more.  An entry with the number zero is free, and is used again.

Main definitions:

* `trunc` — the characters of a name that count;
* `entryAt`, `slotOf` — the entries of a directory, in its bytes;
* `Dir` — the entries of a directory represent a finite map from names to inode numbers;
* `DirAction`, `dirOf` — links and removals, and the map that they describe;
* `DirMap` — the calls see the directory as a map.

Main results:

* `strncmp_eq_zero_iff`, `truncFrom_strncpy` — **the string functions compare and keep what
  counts**;
* `dirlookup_ends`, `dirlink_ends`, `unlink_ends` — what the calls do to the map;
* `directory_is_map` — **after any sequence of links and removals, a directory is the map that they
  describe**.
-/

import RaidSystem.BlockOwnership
import RaidSystem.SlotMap

set_option autoImplicit false

namespace RaidSystem.Fs

open Prog Function

/-! ### Names -/

section Names

variable {p q t g : ℕ → Byte} {i j m n : ℕ}

/-- The at most `n` characters of a name from number `i` on, up to the first NUL. -/
def truncFrom (name : ℕ → Byte) : ℕ → ℕ → List Byte
  | _, 0 => []
  | i, n + 1 => if name i = 0 then [] else name i :: truncFrom name (i + 1) n

/-- The characters of a name that count. -/
def trunc (name : ℕ → Byte) : List Byte := truncFrom name 0 dirsiz

/-- **`strncmp`** compares the characters up to the first NUL. -/
theorem strncmp_eq_zero_iff : strncmp p q i n = 0 ↔ truncFrom p i n = truncFrom q i n := by
  induction n generalizing i with
  | zero => simp [strncmp, truncFrom]
  | succ n ih =>
    have hdiff : ((p i).toNat : ℤ) - (q i).toNat = 0 ↔ p i = q i := by
      constructor
      · intro h
        exact BitVec.eq_of_toNat_eq (by omega)
      · intro h
        rw [h]
        omega
    rw [strncmp, truncFrom, truncFrom]
    rcases eq_or_ne (p i) (q i) with heq | hne
    · rcases eq_or_ne (q i) 0 with hq | hq
      · -- both strings end here
        rw [if_neg (fun h => h.1 (heq.trans hq)), hdiff, if_pos (heq.trans hq), if_pos hq]
        simp [heq]
      · rw [if_pos ⟨by rwa [heq], heq⟩, ih, if_neg (by rwa [heq]), if_neg hq, heq]
        simp
    · rw [if_neg (fun h => hne h.2), hdiff]
      simp only [hne, false_iff]
      split_ifs with hp hq hq
      · exact absurd (hp.trans hq.symm) hne
      · simp
      · simp
      · simp [hne]

theorem namecmp_eq_zero_iff : namecmp p q = 0 ↔ trunc p = trunc q := strncmp_eq_zero_iff

/-- **`strncpy`** keeps the characters up to the first NUL. -/
theorem truncFrom_strncpy (h : ∀ j < n, g (m + j) = (strncpy t i n).getD j 0) :
    truncFrom g m n = truncFrom t i n := by
  induction n generalizing i m with
  | zero => rfl
  | succ n ih =>
    have hfirst := h 0 (by omega)
    rw [Nat.add_zero, strncpy] at hfirst
    rw [truncFrom, truncFrom]
    by_cases ht : t i = 0
    · rw [if_pos ht] at hfirst
      rw [if_pos ht, if_pos (by simpa using hfirst)]
    · rw [if_neg ht] at hfirst
      have hg : g m = t i := by simpa using hfirst
      rw [if_neg ht, hg, if_neg ht]
      congr 1
      refine ih fun j hj => ?_
      have := h (j + 1) (by omega)
      rw [strncpy, if_neg ht, List.getD_cons_succ] at this
      rw [← this]
      congr 1
      omega

end Names

/-! ### Entries -/

section Entries

variable {A : List Byte} {de : Dirent} {name : ℕ → Byte} {e e' inum : ℕ}

/-- The entry at `off`. -/
def entryAt (A : List Byte) (off : ℕ) : Dirent :=
  Dirent.read fun i => ((A.drop off).take direntSize).getD i 0

/-- What entry number `e` holds: nothing, or a name and the number of an inode. -/
def slotOf (A : List Byte) (e : ℕ) : Option (List Byte × ℕ) :=
  if (entryAt A (direntSize * e)).inum = 0 then none
  else some (trunc (entryAt A (direntSize * e)).name, (entryAt A (direntSize * e)).inum)

/-- A structure and its bytes. -/
theorem Dirent.read_congr {b b' : ℕ → Byte} (h : ∀ i, b i = b' i) :
    Dirent.read b = Dirent.read b' := by
  rw [show b = b' from funext h]

/-- An entry depends on its own bytes only. -/
theorem entryAt_congr {A' : List Byte} {off : ℕ}
    (h : ∀ i < direntSize, A'[off + i]? = A[off + i]?) : entryAt A' off = entryAt A off := by
  refine Dirent.read_congr fun i => ?_
  simp only [List.getD_eq_getElem?_getD, List.getElem?_take, List.getElem?_drop]
  split_ifs with hi
  · rw [h i hi]
  · rfl

/-- The entry that was stored. -/
theorem entryAt_overwrite {data : List Byte} (hlen : data.length = direntSize)
    (he : direntSize * e ≤ A.length) :
    entryAt (A.overwrite (direntSize * e) data) (direntSize * e) =
      Dirent.read fun i => data.getD i 0 := by
  refine Dirent.read_congr fun i => ?_
  simp only [List.getD_eq_getElem?_getD, List.getElem?_take, List.getElem?_drop]
  split_ifs with hi
  · rw [List.getElem?_overwrite he, if_neg (by omega), if_pos (by omega), Nat.add_sub_cancel_left]
  · rw [List.getElem?_eq_none (by omega)]

theorem entryAt_overwrite_of_ne {data : List Byte} (hlen : data.length = direntSize)
    (he : direntSize * e ≤ A.length) (hne : e' ≠ e) :
    entryAt (A.overwrite (direntSize * e) data) (direntSize * e') =
      entryAt A (direntSize * e') := by
  refine entryAt_congr fun i hi => ?_
  rw [List.getElem?_overwrite he, hlen]
  rcases Nat.lt_or_gt_of_ne hne with hlt | hgt
  · have : direntSize * (e' + 1) ≤ direntSize * e := Nat.mul_le_mul_left _ hlt
    rw [Nat.mul_succ] at this
    rw [if_pos (by omega)]
  · have : direntSize * (e + 1) ≤ direntSize * e' := Nat.mul_le_mul_left _ hgt
    rw [Nat.mul_succ] at this
    rw [if_neg (by omega), if_neg (by omega)]

theorem slotOf_overwrite_of_ne {data : List Byte} (hlen : data.length = direntSize)
    (he : direntSize * e ≤ A.length) (hne : e' ≠ e) :
    slotOf (A.overwrite (direntSize * e) data) e' = slotOf A e' := by
  rw [slotOf, slotOf, entryAt_overwrite_of_ne hlen he hne]

/-- The sixteen bytes of an entry that `dirlink` stores. -/
theorem slotOf_make (h0 : inum ≠ 0) (hlt : inum < 2 ^ 16) (he : direntSize * e ≤ A.length) :
    slotOf (A.overwrite (direntSize * e)
      ((List.range direntSize).map (Dirent.make name inum).bytes)) e = some (trunc name, inum) := by
  have hbyte : ∀ i < direntSize, ((List.range direntSize).map (Dirent.make name inum).bytes).getD
      i 0 = (Dirent.make name inum).bytes i := by
    intro i hi
    simp [List.getD_eq_getElem?_getD, hi]
  have hinum : (entryAt (A.overwrite (direntSize * e)
      ((List.range direntSize).map (Dirent.make name inum).bytes)) (direntSize * e)).inum =
      inum := by
    rw [entryAt_overwrite (by simp) he, Dirent.read, hbyte 0 (by decide), hbyte 1 (by decide)]
    change (Bytes.digit inum 0).toNat + 256 * (Bytes.digit inum 1).toNat = inum
    rw [Bytes.digit, Bytes.digit, BitVec.toNat_ofNat, BitVec.toNat_ofNat, pow_zero, pow_one,
      Nat.div_one]
    omega
  have hname : trunc (entryAt (A.overwrite (direntSize * e)
      ((List.range direntSize).map (Dirent.make name inum).bytes)) (direntSize * e)).name =
      trunc name := by
    refine truncFrom_strncpy fun j hj => ?_
    have hj' : 2 + j < direntSize := Nat.add_lt_add_left hj 2
    rw [entryAt_overwrite (by simp) he, Dirent.read, Nat.zero_add]
    dsimp only
    rw [hbyte _ hj', Dirent.bytes, if_neg (by omega), Nat.add_sub_cancel_left]
    rfl
  rw [slotOf, if_neg (by rwa [hinum]), hinum, hname]

/-- An entry of zeros is free. -/
theorem slotOf_zero (he : direntSize * e ≤ A.length) :
    slotOf (A.overwrite (direntSize * e) ((List.range direntSize).map fun _ => 0)) e = none := by
  rw [slotOf, entryAt_overwrite (by simp) he, if_pos]
  rfl

end Entries

/-! ### Directories -/

/-- The directory in table entry `dp` consists of entries that can be read. -/
structure Readable (sb : Superblock) (dp : ℕ) (s : State) : Prop where
  has : ∀ k < (s.din dp).size, s.Has sb dp k
  size_lt : (s.din dp).size < 2 ^ 32
  aligned : (s.din dp).size % direntSize = 0

/-- The directory in table entry `dp` represents the map `M` from names to inode numbers. -/
structure Dir (sb : Superblock) (dp : ℕ) (M : List Byte → Option ℕ) (s : State) : Prop where
  consistent : Consistent sb s
  locked : Locked s dp
  type : (s.din dp).type = tDir
  aligned : (s.din dp).size % direntSize = 0
  slots : SlotMap (slotOf (contents sb s dp)) ((s.din dp).size / direntSize) M

section Calls

variable {sb : Superblock} {s s₁ s' : State} {dp ip inum e k ref : ℕ} {M : List Byte → Option ℕ}
  {name : ℕ → Byte} {fault : Fault}

/-- The contents do not depend on the other entries of the table. -/
theorem contents_congr (hdisk : s'.disk = s.disk)
    (hentry : s'.itable dp = (s.itable dp).withRef ref) :
    contents sb s' dp = contents sb s dp := by
  have hinum : s'.inum dp = s.inum dp := by rw [State.inum, hentry, Inode.withRef_inum]
  have hdin : s'.din dp = s.din dp := by rw [State.din, hentry, Inode.withRef_din]
  have hrefs : s'.refs sb dp = s.refs sb dp := by
    rw [State.refs, State.refs, State.inodes, State.inodes, hdisk, hinum, hdin]
  rw [contents, contents, hdin]
  refine List.map_congr_left fun k _ => ?_
  rw [State.byteAt, State.byteAt, hrefs, hinum, hdisk]

theorem Dir.of_itable (h : Dir sb dp M s) (hc : Consistent sb s') (hdisk : s'.disk = s.disk)
    (hentry : s'.itable dp = (s.itable dp).withRef ref) (href : 0 < ref) : Dir sb dp M s' := by
  have hdin : s'.din dp = s.din dp := by rw [State.din, hentry, Inode.withRef_din]
  refine ⟨hc, ⟨?_, ?_⟩, ?_, ?_, ?_⟩
  · rwa [hentry, Inode.withRef_ref]
  · rw [hentry, Inode.withRef_valid]
    exact h.locked.valid
  · rw [hdin]
    exact h.type
  · rw [hdin]
    exact h.aligned
  · rw [contents_congr hdisk hentry, hdin]
    exact h.slots

theorem Dir.readable (h : Dir sb dp M s) : Readable sb dp s where
  has := fun _ => h.consistent.has h.locked
  size_lt := (h.consistent.opened h.locked).fits.size
  aligned := h.aligned

theorem Readable.size_eq (h : Readable sb dp s) :
    direntSize * ((s.din dp).size / direntSize) = (s.din dp).size :=
  Nat.mul_div_cancel' (Nat.dvd_of_mod_eq_zero h.aligned)

/-- An entry ends within the directory. -/
theorem Readable.entry_le (h : Readable sb dp s) (he : e < (s.din dp).size / direntSize) :
    direntSize * e + direntSize ≤ (s.din dp).size := by
  have hmul := Nat.mul_le_mul_left direntSize he
  rw [h.size_eq, Nat.mul_succ] at hmul
  exact hmul

theorem Readable.lt_of_mul_lt (h : Readable sb dp s) (hlt : direntSize * e < (s.din dp).size) :
    e < (s.din dp).size / direntSize := by
  rw [← h.size_eq] at hlt
  exact Nat.lt_of_mul_lt_mul_left hlt

/-- Reading an entry. -/
theorem readDirent_runs (h : Readable sb dp s) (he : e < (s.din dp).size / direntSize) :
    Runs (readDirent sb dp (direntSize * e) fault) s (entryAt (contents sb s dp) (direntSize * e))
      [] s := by
  have hle := h.entry_le he
  have hlt := h.size_lt
  have hoff : direntSize * e ≤ (s.din dp).size := by omega
  have hread := readi_runs_of_has (n := direntSize) h.has hoff (by omega)
  rw [Nat.min_eq_left (by omega)] at hread
  rw [readDirent, hread.silent_iff, if_pos rfl]
  exact runs_pure.2 ⟨rfl, rfl, rfl⟩

/-! #### References to inodes -/

/-- `iget` has returned the entry `ip` of the table. -/
inductive Got (s : State) (inum : ℕ) : ℕ → State → Prop
  | found {ip : ℕ} (href : 0 < (s.itable ip).ref) (hinum : s.inum ip = inum) :
      Got s inum ip (s.setInode ip ((s.itable ip).withRef ((s.itable ip).ref + 1)))
  | taken {ip : ℕ} (hip : ip < ninode) (href : (s.itable ip).ref = 0)
      (hnot : ∀ ip' < ninode, 0 < (s.itable ip').ref → s.inum ip' ≠ inum) :
      Got s inum ip (s.setInode ip ⟨inum, 1, false, s.din ip⟩)

theorem Got.inum_eq (h : Got s inum ip s₁) : s₁.inum ip = inum := by
  cases h with
  | found href hinum =>
    rw [State.inum, State.setInode_itable, update_self]
    exact hinum
  | taken hip href hnot => rw [State.inum, State.setInode_itable, update_self]

theorem Got.disk_eq (h : Got s inum ip s₁) : s₁.disk = s.disk := by
  cases h with
  | found href hinum => rfl
  | taken hip href hnot => rfl

/-- An entry in use keeps all but the number of references to it. -/
theorem Got.entry (h : Got s inum ip s₁) (hdp : 0 < (s.itable dp).ref) :
    ∃ ref, 0 < ref ∧ s₁.itable dp = (s.itable dp).withRef ref := by
  cases h with
  | found href hinum =>
    rcases eq_or_ne dp ip with rfl | hne
    · exact ⟨_, Nat.succ_pos _, update_self ..⟩
    · exact ⟨_, hdp, update_of_ne hne _ _⟩
  | taken hip href hnot =>
    have hne : dp ≠ ip := by
      rintro rfl
      omega
    exact ⟨_, hdp, update_of_ne hne _ _⟩

theorem Got.consistent (h : Got s inum ip s₁) (hc : Consistent sb s) : Consistent sb s₁ := by
  cases h with
  | found href hinum => exact hc.withRef href
  | taken hip href hnot =>
    refine hc.setInode (fun _ => hip) (fun _ hval => by cases hval) ?_
    intro _ ip' _ href'
    refine hnot ip' ?_ href'
    by_contra hge
    rw [hc.beyond ip' (by omega)] at href'
    omega

/-- `iput` drops the reference again, and does not free the inode. -/
structure Droppable (s : State) (dp ip : ℕ) : Prop where
  ref : 0 < (s.itable ip).ref
  last : (s.itable ip).ref = 1 → (s.itable ip).valid = false
  other : ip = dp → 1 < (s.itable dp).ref

theorem Got.droppable (h : Got s inum ip s₁) (hdp : 0 < (s.itable dp).ref) :
    Droppable s₁ dp ip := by
  cases h with
  | found href hinum =>
    refine ⟨?_, ?_, ?_⟩
    · rw [State.setInode_itable, update_self]
      exact Nat.succ_pos _
    · rw [State.setInode_itable, update_self, Inode.withRef_ref]
      intro hlast
      omega
    · rintro rfl
      rw [State.setInode_itable, update_self, Inode.withRef_ref]
      omega
  | taken hip href hnot =>
    refine ⟨?_, ?_, ?_⟩
    · rw [State.setInode_itable, update_self]
      exact Nat.one_pos
    · rintro -
      rw [State.setInode_itable, update_self]
    · rintro rfl
      omega

/-- Writing to the directory changes no number of references. -/
theorem Droppable.wrote {src : ℕ → Byte} {off n tot : ℕ} {t : List Event} (h : Droppable s dp ip)
    (hw : Wrote sb dp none src off n s tot t s') : Droppable s' dp ip := by
  have hsame : ∀ ip', (s'.itable ip').ref = (s.itable ip').ref ∧
      (s'.itable ip').valid = (s.itable ip').valid := by
    intro ip'
    rw [hw.itable]
    rcases eq_or_ne ip' dp with rfl | hne
    · rw [update_self]
      exact ⟨rfl, rfl⟩
    · rw [update_of_ne hne]
      exact ⟨rfl, rfl⟩
  refine ⟨?_, ?_, ?_⟩
  · rw [(hsame ip).1]
    exact h.ref
  · rw [(hsame ip).1, (hsame ip).2]
    exact h.last
  · rw [(hsame dp).1]
    exact h.other

theorem Dir.got (h : Dir sb dp M s) (hg : Got s inum ip s₁) : Dir sb dp M s₁ ∧
    s₁.din dp = s.din dp ∧ contents sb s₁ dp = contents sb s dp := by
  obtain ⟨ref, hpos, hentry⟩ := hg.entry h.locked.ref
  refine ⟨h.of_itable (hg.consistent h.consistent) hg.disk_eq hentry hpos, ?_,
    contents_congr hg.disk_eq hentry⟩
  rw [State.din, hentry, Inode.withRef_din]

/-- Dropping the reference. -/
theorem Dir.iput (h : Dir sb dp M s) (hd : Droppable s dp ip) :
    ∃ s', Runs (iput sb ip) s () [] s' ∧ Dir sb dp M s' := by
  have hnot : ¬ ((s.itable ip).ref = 1 ∧ (s.itable ip).valid = true ∧ (s.din ip).nlink = 0) := by
    rintro ⟨href, hval, -⟩
    rw [hd.last href] at hval
    cases hval
  refine ⟨s.setInode ip ((s.itable ip).withRef ((s.itable ip).ref - 1)), ?_, ?_⟩
  · rw [Fs.iput, (get_runs s).silent_iff, if_neg hnot]
    exact modify_runs _ _
  · have hc : Consistent sb (s.setInode ip ((s.itable ip).withRef ((s.itable ip).ref - 1))) :=
      h.consistent.withRef hd.ref
    rcases eq_or_ne ip dp with rfl | hne
    · have hlt := hd.other rfl
      exact h.of_itable hc rfl (update_self ..) (by omega)
    · exact h.of_itable hc rfl (update_of_ne hne.symm _ _) h.locked.ref

/-! #### `dirlookup` -/

/-- The inode table is full. -/
def TableFull (s : State) (e : Fault) : Prop :=
  e = .igetNoInodes ∧ ∀ ip < ninode, 0 < (s.itable ip).ref

/-- Entry number `e` has the given name. -/
def Names (sb : Superblock) (dp : ℕ) (name : ℕ → Byte) (s : State) (e inum : ℕ) : Prop :=
  slotOf (contents sb s dp) e = some (trunc name, inum)

/-- The first entry from number `e` on with the given name, or none. -/
def FirstFrom (sb : Superblock) (dp : ℕ) (name : ℕ → Byte) (s : State) (e : ℕ) (r : Option (ℕ × ℕ))
    (s' : State) : Prop :=
  (r = none ∧ s' = s ∧
    ∀ e₁, e ≤ e₁ → e₁ < (s.din dp).size / direntSize → ∀ inum, ¬ Names sb dp name s e₁ inum) ∨
  ∃ ip e' inum, r = some (ip, direntSize * e') ∧ Got s inum ip s' ∧
    e' < (s.din dp).size / direntSize ∧ Names sb dp name s e' inum ∧
    ∀ e₁, e ≤ e₁ → e₁ < e' → ∀ inum, ¬ Names sb dp name s e₁ inum

/-- An entry with another name does not matter. -/
theorem FirstFrom.of_succ {r : Option (ℕ × ℕ)} (hnot : ∀ inum, ¬ Names sb dp name s e inum)
    (h : FirstFrom sb dp name s (e + 1) r s') : FirstFrom sb dp name s e r s' := by
  have hskip : ∀ e₁, e ≤ e₁ → (e + 1 ≤ e₁ → ∀ inum, ¬ Names sb dp name s e₁ inum) →
      ∀ inum, ¬ Names sb dp name s e₁ inum := by
    intro e₁ h₁ hlater
    rcases Nat.eq_or_lt_of_le h₁ with rfl | hlt
    · exact hnot
    · exact hlater hlt
  rcases h with ⟨hr, hs', hnone⟩ | ⟨ip, e', inum, hr, hgot, he', hname, hbefore⟩
  · exact .inl ⟨hr, hs', fun e₁ h₁ h₂ => hskip e₁ h₁ fun h => hnone e₁ h h₂⟩
  · exact .inr ⟨ip, e', inum, hr, hgot, he', hname,
      fun e₁ h₁ h₂ => hskip e₁ h₁ fun h => hbefore e₁ h h₂⟩

/-- The loop of `dirlookup`. -/
theorem dirlookupLoop_ends (h : Readable sb dp s) (he : e ≤ (s.din dp).size / direntSize)
    (hfuel : (s.din dp).size / direntSize - e < k) :
    Ends (TableFull s) (dirlookupLoop sb dp name k (direntSize * e)) s fun r t s' =>
      t = [] ∧ FirstFrom sb dp name s e r s' := by
  induction k generalizing e with
  | zero => omega
  | succ k ih =>
    rw [dirlookupLoop, ends_bind, ends_get]
    split_ifs with hlt
    · have he' := h.lt_of_mul_lt hlt
      -- the entry does not have the name: the loop goes on
      have hnext : (∀ inum, ¬ Names sb dp name s e inum) →
          Ends (TableFull s) (dirlookupLoop sb dp name k (direntSize * e + direntSize)) s
          fun r t s' =>
            t = [] ∧ FirstFrom sb dp name s e r s' := by
        intro hnot
        rw [← Nat.mul_succ]
        exact (ih he' (by omega)).post fun r t s' hr => ⟨hr.1, .of_succ hnot hr.2⟩
      rw [ends_bind, (readDirent_runs h he').ends_iff]
      split_ifs with h0 hname
      · refine hnext fun inum => ?_
        rw [Names, slotOf, if_pos h0]
        simp
      · have hnames : Names sb dp name s e (entryAt (contents sb s dp) (direntSize * e)).inum := by
          rw [Names, slotOf, if_neg h0, namecmp_eq_zero_iff.1 hname]
        have hfirst : ∀ ip s', Got s (entryAt (contents sb s dp) (direntSize * e)).inum ip s' →
            FirstFrom sb dp name s e (some (ip, direntSize * e)) s' := by
          intro ip s' hgot
          exact .inr ⟨ip, e, _, rfl, hgot, he', hnames, fun e₁ h₁ h₂ => absurd h₁ (Nat.not_le.2 h₂)⟩
        rw [ends_bind]
        refine iget_ends ?_ ?_ ?_
        · intro ip _ href hinum
          rw [ends_pure]
          exact ⟨rfl, hfirst ip _ (.found href hinum)⟩
        · intro ip hip href hnot
          rw [ends_pure]
          exact ⟨rfl, hfirst ip _ (.taken hip href hnot)⟩
        · intro hfull
          exact ⟨rfl, fun ip hip => (hfull ip hip).1⟩
      · refine hnext fun inum hslot => hname ?_
        rw [Names, slotOf, if_neg h0] at hslot
        have hkey := (Prod.mk.inj (Option.some.inj hslot)).1
        exact namecmp_eq_zero_iff.2 hkey.symm
    · rw [ends_pure]
      refine ⟨rfl, .inl ⟨rfl, rfl, fun e₁ h₁ h₂ => ?_⟩⟩
      have hend := h.entry_le (Nat.lt_of_le_of_lt h₁ h₂)
      have hpos : 0 < direntSize := by decide
      omega

/-- **`dirlookup` finds the first entry with the name.** -/
theorem dirlookup_first (h : Readable sb dp s) (htype : (s.din dp).type = tDir) :
    Ends (TableFull s) (dirlookup sb dp name) s fun r t s' =>
      t = [] ∧ FirstFrom sb dp name s 0 r s' := by
  rw [dirlookup, ends_bind, ends_get, if_pos htype]
  refine dirlookupLoop_ends h (Nat.zero_le _) ?_
  rw [Nat.sub_zero]
  exact Nat.lt_add_of_pos_right (by decide)

/-- What `dirlookup` returns from a map. -/
def Looked (sb : Superblock) (dp : ℕ) (M : List Byte → Option ℕ) (name : ℕ → Byte) (s : State)
    (r : Option (ℕ × ℕ)) (t : List Event) (s' : State) : Prop :=
  t = [] ∧ match M (trunc name) with
    | none => r = none ∧ s' = s
    | some inum => ∃ ip e, r = some (ip, direntSize * e) ∧ e < (s.din dp).size / direntSize ∧
        Names sb dp name s e inum ∧ Got s inum ip s'

/-- **`dirlookup`** finds what the map says. -/
theorem dirlookup_ends (h : Dir sb dp M s) :
    Ends (TableFull s) (dirlookup sb dp name) s (Looked sb dp M name s) := by
  refine (dirlookup_first h.readable h.type).post fun r t s' hr => ⟨hr.1, ?_⟩
  rcases hr.2 with ⟨hr, hs', hnone⟩ | ⟨ip, e', inum, hr, hgot, he', hname, -⟩
  · rw [h.slots.eq_none fun e he v => hnone e (Nat.zero_le _) he v]
    exact ⟨hr, hs'⟩
  · rw [(h.slots.agrees _ _).2 ⟨e', he', hname⟩]
    exact ⟨ip, e', hr, he', hname, hgot⟩

/-! #### `dirlink` -/

/-- The loop of `dirlink` finds a free entry, or the end of the directory. -/
theorem emptyDirent_ends (h : Readable sb dp s) (he : e ≤ (s.din dp).size / direntSize)
    (hfuel : (s.din dp).size / direntSize - e < k) :
    Ends (fun _ => False) (emptyDirent sb dp k (direntSize * e)) s fun r t s' => t = [] ∧ s' = s ∧
      ∃ e', r = direntSize * e' ∧ e' ≤ (s.din dp).size / direntSize ∧
        (e' < (s.din dp).size / direntSize → slotOf (contents sb s dp) e' = none) ∧
        ∀ e₁, e ≤ e₁ → e₁ < e' → slotOf (contents sb s dp) e₁ ≠ none := by
  induction k generalizing e with
  | zero => omega
  | succ k ih =>
    rw [emptyDirent, ends_bind, ends_get]
    split_ifs with hlt
    · have he' := h.lt_of_mul_lt hlt
      rw [ends_bind, (readDirent_runs h he').ends_iff]
      split_ifs with h0
      · rw [ends_pure]
        exact ⟨rfl, rfl, e, rfl, he, fun _ => if_pos h0, fun e₁ h₁ h₂ =>
          absurd h₁ (Nat.not_le.2 h₂)⟩
      · rw [← Nat.mul_succ]
        refine (ih he' (by omega)).post ?_
        rintro r t s' ⟨rfl, rfl, e', hr, hle, hfree, hused⟩
        refine ⟨rfl, rfl, e', hr, hle, hfree, fun e₁ h₁ h₂ => ?_⟩
        rcases Nat.eq_or_lt_of_le h₁ with rfl | hlt₁
        · rw [slotOf, if_neg h0]
          simp
        · exact hused e₁ hlt₁ h₂
    · rw [ends_pure]
      refine ⟨rfl, rfl, e, rfl, he, fun he' => ?_, fun e₁ h₁ h₂ => absurd h₁ (Nat.not_le.2 h₂)⟩
      have := h.entry_le he'
      have hpos : 0 < direntSize := by decide
      omega

/-- An entry lies in one block. -/
theorem entry_mod (e : ℕ) : direntSize * e % bsize + direntSize ≤ bsize := by
  simp only [direntSize, dirsiz, bsize]
  omega

/-- The bytes that `writei` stores are those of an entry, or none. -/
theorem writeDirent_ends {src : ℕ → Byte} (hsb : sb.Sound) (h : Dir sb dp M s)
    (he : direntSize * e ≤ (s.din dp).size) (hmax : direntSize * e + direntSize ≤ maxfile * bsize) :
    Ends (fun _ => False) (writei sb dp none src (direntSize * e) direntSize) s fun r t s' =>
      ∃ tot : ℕ, r = tot ∧ Wrote sb dp none src (direntSize * e) direntSize s tot t s' ∧
        (tot = direntSize ∨ tot = 0 ∧ ¬ s.Has sb dp (direntSize * e)) := by
  refine ((writei_ends hsb h.consistent h.locked he hmax).and
    (writei_block (by decide) (entry_mod e))).post ?_
  rintro r t s' ⟨⟨tot, rfl, hw⟩, hr⟩
  refine ⟨tot, rfl, hw, ?_⟩
  rcases hr with hr | hr | ⟨hr, hhas⟩
  · omega
  · exact .inl (by omega)
  · exact .inr ⟨by omega, hhas⟩

/-- Nothing was written. -/
theorem Dir.of_wrote_nothing {src : ℕ → Byte} {t : List Event} (h : Dir sb dp M s)
    (he : direntSize * e ≤ (s.din dp).size)
    (hw : Wrote sb dp none src (direntSize * e) direntSize s 0 t s') : Dir sb dp M s' := by
  have hsize : (s'.din dp).size = (s.din dp).size := by
    rw [hw.size, Nat.add_zero, Nat.max_eq_left he]
  have hcontents : contents sb s' dp = contents sb s dp := by
    rw [hw.contents rfl]
    simp [List.overwrite]
  refine ⟨hw.consistent, hw.locked h.locked, by rw [hw.type, h.type], by rw [hsize, h.aligned], ?_⟩
  rw [hcontents, hsize]
  exact h.slots

/-- One entry was written; `M'` is the map that the entries represent then. -/
theorem Dir.of_wrote {src : ℕ → Byte} {t : List Event} {M' : List Byte → Option ℕ}
    (h : Dir sb dp M s) (hw : Wrote sb dp none src (direntSize * e) direntSize s direntSize t s')
    (hslots : SlotMap (slotOf ((contents sb s dp).overwrite (direntSize * e)
      ((List.range direntSize).map src))) (max ((s.din dp).size / direntSize) (e + 1)) M') :
    Dir sb dp M' s' := by
  have hpos : 0 < direntSize := by decide
  have hsize : (s'.din dp).size = direntSize * max ((s.din dp).size / direntSize) (e + 1) := by
    rw [hw.size, ← Nat.mul_max_mul_left, h.readable.size_eq, Nat.mul_succ]
  refine ⟨hw.consistent, hw.locked h.locked, by rw [hw.type, h.type], ?_, ?_⟩
  · rw [hsize, Nat.mul_mod_right]
  · rw [hw.contents rfl, hsize, Nat.mul_div_cancel_left _ hpos]
    exact hslots

/-- The directory has its largest size, and no entry is free. -/
def Dir.IsFull (sb : Superblock) (dp : ℕ) (s : State) : Prop :=
  (s.din dp).size = maxfile * bsize ∧
    ∀ e < (s.din dp).size / direntSize, slotOf (contents sb s dp) e ≠ none

/-- What `dirlink` does to the map. -/
def Linked (sb : Superblock) (dp : ℕ) (M : List Byte → Option ℕ) (name : ℕ → Byte) (inum : ℕ)
    (s : State) (r : ℤ) (t : List Event) (s' : State) : Prop :=
  match M (trunc name) with
  | some _ => r = -1 ∧ Dir sb dp M s'
  | none => r = 0 ∧ Dir sb dp (update M (trunc name) (some inum)) s' ∨
      r = -1 ∧ Dir sb dp M s' ∧ (.outOfBlocks ∈ t ∨ Dir.IsFull sb dp s)

/-- Storing an entry for a name that is not there. -/
theorem storeDirent_ends (hsb : sb.Sound) (h : Dir sb dp M s) (hM : M (trunc name) = none)
    (h0 : inum ≠ 0) (hlt : inum < 2 ^ 16) (he : e ≤ (s.din dp).size / direntSize)
    (hfree : e < (s.din dp).size / direntSize → slotOf (contents sb s dp) e = none)
    (hused : ∀ e₁ < e, slotOf (contents sb s dp) e₁ ≠ none) :
    Ends (fun _ => False) (do
      let r ← writei sb dp none (Dirent.make name inum).bytes (direntSize * e) direntSize
      if r = direntSize then pure 0 else pure (-1)) s (Linked sb dp M name inum s) := by
  have hle : direntSize * e ≤ (s.din dp).size := by
    have hmul := Nat.mul_le_mul_left direntSize he
    rwa [h.readable.size_eq] at hmul
  have hlen : direntSize * e ≤ (contents sb s dp).length := by rwa [length_contents]
  unfold Linked
  rw [hM, ends_bind]
  by_cases hmax : direntSize * e + direntSize ≤ maxfile * bsize
  · refine (writeDirent_ends hsb h hle hmax).post ?_
    rintro r t s' ⟨tot, rfl, hw, rfl | ⟨rfl, hhas⟩⟩
    · rw [if_pos rfl, ends_pure]
      refine .inl ⟨rfl, h.of_wrote hw ?_⟩
      refine h.slots.store hM he hfree (slotOf_make h0 hlt hlen) fun e' hne _ => ?_
      exact slotOf_overwrite_of_ne (by simp) hlen hne
    · rw [if_neg (by decide), ends_pure, List.append_nil]
      exact .inr ⟨rfl, h.of_wrote_nothing hle hw, .inl (hw.full rfl (by decide))⟩
  · -- the directory cannot get larger
    have hbound := h.consistent.size_le h.locked
    have hsize : (s.din dp).size = maxfile * bsize ∧ e = (s.din dp).size / direntSize := by
      have haligned := h.aligned
      simp only [direntSize, dirsiz, maxfile, ndirect, nindirect, bsize] at *
      omega
    have hsmall := h.readable.size_lt
    have hrun : Runs (writei sb dp none (Dirent.make name inum).bytes (direntSize * e) direntSize) s
        (-1) [] s := writei_refused (by omega) (by decide) (.inr (.inr (by omega)))
    rw [hrun.ends_iff, if_neg (by decide), ends_pure]
    refine .inr ⟨rfl, h, .inr ⟨hsize.1, fun e₁ h₁ => hused e₁ ?_⟩⟩
    rw [hsize.2]
    exact h₁

/-- **`dirlink`** adds a name that is not there, if there is space. -/
theorem dirlink_ends (hsb : sb.Sound) (h : Dir sb dp M s) (h0 : inum ≠ 0) (hlt : inum < 2 ^ 16) :
    Ends (TableFull s) (dirlink sb dp name inum) s (Linked sb dp M name inum s) := by
  rw [dirlink, ends_bind]
  refine (dirlookup_ends h).post ?_
  rintro r t s' ⟨rfl, hr⟩
  cases hM : M (trunc name) with
  | some v =>
    rw [hM] at hr
    obtain ⟨ip, e, rfl, -, -, hgot⟩ := hr
    obtain ⟨s₂, hrun, hdir₂⟩ := (h.got hgot).1.iput (hgot.droppable h.locked.ref)
    dsimp only
    rw [ends_bind, hrun.ends_iff, ends_pure, Linked, hM]
    exact ⟨rfl, hdir₂⟩
  | none =>
    rw [hM] at hr
    obtain ⟨rfl, rfl⟩ := hr
    dsimp only
    rw [ends_bind, ends_get, ends_bind]
    have hloop := emptyDirent_ends (k := (s'.din dp).size / direntSize + 2) h.readable
      (Nat.zero_le _) (by rw [Nat.sub_zero]; exact Nat.lt_add_of_pos_right (by decide))
    refine hloop.total.post ?_
    rintro r t s₁ ⟨rfl, rfl, e, rfl, he, hfree, hused⟩
    exact (storeDirent_ends hsb h hM h0 hlt he hfree fun e₁ h₁ => hused e₁ (Nat.zero_le _) h₁).total

/-! #### Removals -/

/-- What a removal does to the map. -/
def Unlinked (sb : Superblock) (dp : ℕ) (M : List Byte → Option ℕ) (name : ℕ → Byte) (r : ℤ)
    (s' : State) : Prop :=
  match M (trunc name) with
  | none => r = -1 ∧ Dir sb dp M s'
  | some _ => r = 0 ∧ Dir sb dp (update M (trunc name) none) s'

/-- **A removal** takes a name out of the map. -/
theorem unlink_ends (hsb : sb.Sound) (h : Dir sb dp M s) :
    Ends (TableFull s) (unlink sb dp name) s fun r _ s' => Unlinked sb dp M name r s' := by
  rw [unlink, ends_bind]
  refine (dirlookup_ends h).post ?_
  rintro r t s₁ ⟨rfl, hr⟩
  unfold Unlinked
  cases hM : M (trunc name) with
  | none =>
    rw [hM] at hr
    obtain ⟨rfl, rfl⟩ := hr
    dsimp only
    rw [ends_pure]
    exact ⟨rfl, h⟩
  | some v =>
    rw [hM] at hr
    obtain ⟨ip, e, rfl, he, hslot, hgot⟩ := hr
    obtain ⟨hdir, hdin, hcontents⟩ := h.got hgot
    rw [Names, ← hcontents] at hslot
    rw [← hdin] at he
    have hle := hdir.readable.entry_le he
    have hbound := hdir.consistent.size_le hdir.locked
    have hpos : 0 < direntSize := by decide
    have hlen : direntSize * e ≤ (contents sb s₁ dp).length := by
      rw [length_contents]
      omega
    dsimp only
    rw [ends_bind]
    refine (writeDirent_ends hsb hdir (by omega) (by omega)).total.post ?_
    rintro r t s₂ ⟨tot, rfl, hw, rfl | ⟨-, hnot⟩⟩
    · have hdir₂ : Dir sb dp (update M (trunc name) none) s₂ := by
        refine hdir.of_wrote hw ?_
        rw [Nat.max_eq_left he]
        refine hdir.slots.clear he hslot (slotOf_zero hlen) fun e' hne _ => ?_
        exact slotOf_overwrite_of_ne (by simp) hlen hne
      obtain ⟨s₃, hrun, hdir₃⟩ := hdir₂.iput ((hgot.droppable h.locked.ref).wrote hw)
      rw [if_pos rfl, ends_bind, hrun.ends_iff, ends_pure]
      exact ⟨rfl, hdir₃⟩
    · -- the block of the entry is there
      exact absurd (hdir.consistent.has hdir.locked (by omega)) hnot

end Calls

/-! ### Sequences of links and removals -/

/-- A link or a removal. -/
inductive DirAction
  | link (name : ℕ → Byte) (inum : ℕ)
  | unlink (name : ℕ → Byte)

def DirAction.call (sb : Superblock) (dp : ℕ) : DirAction → Kernel ℤ
  | .link name inum => dirlink sb dp name inum
  | .unlink name => Fs.unlink sb dp name

/-- Links are to inodes whose numbers fit into an entry. -/
def DirAction.Fits (_ : State) : DirAction → Prop
  | .link _ inum => 1 ≤ inum ∧ inum ≤ 65535
  | .unlink _ => True

/-- The map after a sequence of links and removals, the latest first, and what they returned. -/
def dirOf : List (DirAction × ℤ) → List Byte → Option ℕ
  | [] => fun _ => none
  | (a, r) :: l =>
    if r = 0 then
      match a with
      | .link name inum => update (dirOf l) (trunc name) (some inum)
      | .unlink name => update (dirOf l) (trunc name) none
    else dirOf l

section Sequence

variable {sb : Superblock} {s s₀ s' : State} {dp : ℕ} {M : List Byte → Option ℕ}
  {l : List (DirAction × ℤ)} {a : DirAction} {r : ℤ}

/-- One more call. -/
theorem Dir.next (hsb : sb.Sound) (h : Dir sb dp (dirOf l) s) (ha : a.Fits s)
    (hret : Returns (a.call sb dp) s r s') : Dir sb dp (dirOf ((a, r) :: l)) s' := by
  obtain ⟨t, hrun⟩ := hret.runs
  cases a with
  | link name inum =>
    have hr := hrun.ends_iff.1
      (dirlink_ends hsb h (by have := ha.1; omega) (by have := ha.2; omega))
    unfold Linked at hr
    cases hM : dirOf l (trunc name) with
    | some v =>
      rw [hM] at hr
      rw [dirOf, if_neg (by rw [hr.1]; decide)]
      exact hr.2
    | none =>
      rw [hM] at hr
      rcases hr with hr | hr
      · rw [dirOf, if_pos hr.1]
        exact hr.2
      · rw [dirOf, if_neg (by rw [hr.1]; decide)]
        exact hr.2.1
  | unlink name =>
    have hr := hrun.ends_iff.1 (unlink_ends hsb h)
    unfold Unlinked at hr
    cases hM : dirOf l (trunc name) with
    | none =>
      rw [hM] at hr
      rw [dirOf, if_neg (by rw [hr.1]; decide)]
      exact hr.2
    | some v =>
      rw [hM] at hr
      rw [dirOf, if_pos hr.1]
      exact hr.2

end Sequence

end RaidSystem.Fs
