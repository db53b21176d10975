/-
**The kernel reads what `mkfs` has written.**

`mkfs` and the kernel place inodes, addresses and directory entries by functions of their own.  This
module starts the kernel from an image that `mkfs` has made, and compares: what `dirlookup` and
`readi` find are the files that `mkfs` was given.

This is not so for every list of files.  The size of the root directory is rounded up past its last
block when its entries fill a block exactly, so that a block is missing; more files than there are
inodes spill into the free map; and a file called `.` or `..` is hidden by the entry of the root
directory for itself.  The kernel unlocks the root directory before it locks the file; locks are not
modelled here.

Main definitions:

* `lookupRead` — what the kernel does to read a file of the root directory;
* `Agrees` — the image is what the kernel expects.

Main results:

* `mkfs_agrees` — **the kernel reads what `mkfs` has written** exactly if none of the above is the
  case;
* `mkfs_skips_block` — 62 empty files leave the root directory with a block missing.
-/

import RaidSystem.Mkfs

set_option autoImplicit false

namespace RaidSystem.Mkfs

open Prog Fs Function

/-! ### The root directory -/

section Root

variable {A : List Byte} {files : List InputFile} {f : InputFile} {name : List Byte}
  {e m inum i : ℕ}

theorem overwrite_length {data : List Byte} : A.overwrite A.length data = A ++ data := by
  simp [List.overwrite]

/-- The entry that was appended last. -/
theorem slotOf_append_self (hA : A.length = direntSize * m) (h0 : inum ≠ 0) (hlt : inum < 2 ^ 16) :
    slotOf (A ++ dirent name inum) m = some (trunc (cstr name), inum) := by
  have hslot : slotOf (A.overwrite (direntSize * m) (dirent name inum)) m =
      some (trunc (cstr name), inum) := slotOf_make h0 hlt (Nat.le_of_eq hA.symm)
  rwa [← hA, overwrite_length] at hslot

theorem slotOf_append_of_ne (hA : A.length = direntSize * m) (hne : e ≠ m) :
    slotOf (A ++ dirent name inum) e = slotOf A e := by
  have hslot : slotOf (A.overwrite (direntSize * m) (dirent name inum)) e = slotOf A e :=
    slotOf_overwrite_of_ne length_dirent (Nat.le_of_eq hA.symm) hne
  rwa [← hA, overwrite_length] at hslot

/-- The name of a file in the root directory. -/
def InputFile.key (f : InputFile) : List Byte := trunc (cstr f.stripped)

/-- The names in the root directory, in the order of its entries. -/
def rootNames (files : List InputFile) : List (List Byte × ℕ) :=
  (trunc (cstr dot), rootino) :: (trunc (cstr dotdot), rootino) ::
    files.mapIdx fun i f => (f.key, i + 2)

theorem rootNames_concat :
    rootNames (files ++ [f]) = rootNames files ++ [(f.key, files.length + 2)] := by
  simp [rootNames, List.mapIdx_append]

@[simp] theorem length_rootNames : (rootNames files).length = files.length + 2 := by
  simp [rootNames]

theorem rootNames_zero : (rootNames files)[0]? = some (trunc (cstr dot), rootino) := rfl

theorem rootNames_one : (rootNames files)[1]? = some (trunc (cstr dotdot), rootino) := rfl

theorem rootNames_file : (rootNames files)[i + 2]? = (files[i]?).map fun f => (f.key, i + 2) := by
  simp [rootNames]

/-- **The entries of the root directory.** -/
theorem slotOf_rootBytes (hlen : files.length + 2 < 2 ^ 16) (he : e < files.length + 2) :
    slotOf (rootBytes files) e = (rootNames files)[e]? := by
  induction files using List.reverseRecOn with
  | nil =>
    have hfirst : (dirent dot rootino).length = direntSize * 1 := by rw [length_dirent, Nat.mul_one]
    have hroot : rootBytes [] = dirent dot rootino ++ dirent dotdot rootino := List.append_nil _
    rw [hroot]
    match e, he with
    | 0, _ =>
      rw [slotOf_append_of_ne hfirst (by decide), ← List.nil_append (dirent dot rootino),
        slotOf_append_self rfl (by decide) (by decide)]
      rfl
    | 1, _ =>
      rw [slotOf_append_self hfirst (by decide) (by decide)]
      rfl
  | append_singleton files f ih =>
    rw [List.length_append, List.length_singleton] at hlen he
    rw [rootBytes_concat, rootNames_concat]
    rcases Nat.lt_or_ge e (files.length + 2) with hlt | hge
    · rw [slotOf_append_of_ne length_rootBytes (by omega), ih (by omega) hlt,
        List.getElem?_append_left (by rwa [length_rootNames])]
    · obtain rfl : e = files.length + 2 := by omega
      rw [slotOf_append_self length_rootBytes (by omega) (by omega),
        List.getElem?_append_right (Nat.le_of_eq length_rootNames), length_rootNames, Nat.sub_self]
      rfl

end Root

/-! ### The kernel on the image -/

/-- The kernel opens the root directory. -/
def openRoot (sb : Superblock) : Kernel ℕ := do
  let dp ← iget rootino
  ilock sb dp
  pure dp

/-- The kernel reads the first `n` bytes of a file that it has looked up. -/
def readFile (sb : Superblock) (ip n : ℕ) : Kernel (ℤ × List Byte) := do
  ilock sb ip
  readi sb ip none 0 n

/-- The kernel looks a file up in the root directory, and reads it. -/
def lookupRead (sb : Superblock) (name : ℕ → Byte) (n : ℕ) : Kernel (ℤ × List Byte) := do
  let dp ← openRoot sb
  match ← dirlookup sb dp name with
  | some (ip, _) => readFile sb ip n
  | none => pure (-1, [])

/-- The size of an inode: that of the root directory is rounded up. -/
def sizeOf (files : List InputFile) (inum : ℕ) : ℕ :=
  if inum = rootino then ((rootBytes files).length / bsize + 1) * bsize
    else (layout files inum).length

/-- The bytes of an inode, as far as its size says; behind those of the root directory there are
zeros. -/
def shown (files : List InputFile) (inum : ℕ) : List Byte :=
  (List.range (sizeOf files inum)).map fun k => (layout files inum).getD k 0

@[simp] theorem length_shown {files : List InputFile} {inum : ℕ} :
    (shown files inum).length = sizeOf files inum := by
  simp [shown]

theorem shown_file {files : List InputFile} {i : ℕ} {f : InputFile} (hi : files[i]? = some f) :
    shown files (i + 2) = f.contents := by
  have hlayout : layout files (i + 2) = f.contents := by rw [layout, hi]; rfl
  have hne : i + 2 ≠ rootino := by
    rw [rootino]
    omega
  rw [shown, sizeOf, if_neg hne, hlayout]
  refine List.ext_getElem (by simp) fun k _ hk => ?_
  simp [hk]

section Kernel

variable {s s₁ : Fs.State} {t : List Event} {img : Image} {files : List InputFile} {ip inum k n : ℕ}
  {y : Dinode}

/-- An inode that is not in the table yet is read from the disk. -/
theorem ilock_runs (hip : s.itable ip = ⟨inum, 1, false, y⟩) (hinum : inum < area.ninodes)
    (htype : (area.inode s.disk inum).type ≠ 0) :
    Runs (ilock sb ip) s () [] (s.setInode ip ⟨inum, 1, true, area.inode s.disk inum⟩) := by
  have hread : Dinode.read (s.disk (sb.iblock inum)) (inum % ipb) = area.inode s.disk inum :=
    (Superblock.inode_of_lt hinum).symm
  rw [ilock, (get_runs s).silent_iff, hip, if_neg (Nat.lt_irrefl 1), if_neg Bool.false_ne_true,
    iload, (get_runs s).silent_iff, hip]
  dsimp only
  rw [hread, (modify_runs _ s).silent_iff, if_neg htype, hip]
  exact runs_pure.2 ⟨rfl, rfl, rfl⟩

/-- Table entry `ip` is a copy of inode `inum` on the disk. -/
structure Loaded (s : Fs.State) (ip inum : ℕ) : Prop where
  inum_eq : s.inum ip = inum
  din_eq : s.din ip = area.inode s.disk inum

theorem refs_congr_inode {disk : Disk} {I I' : ℕ → Dinode} {bn : ℕ} (h : I inum = I' inum) :
    refs disk I (blockRef inum bn) = refs disk I' (blockRef inum bn) := by
  unfold blockRef
  split_ifs
  · rw [refs_addr, refs_addr, h]
  · rw [refs, refs, h]

theorem Loaded.refs_eq (h : Loaded s ip inum) (bn : ℕ) :
    s.refs sb ip (blockRef (s.inum ip) bn) = refs s.disk (area.inode s.disk)
      (blockRef inum bn) := by
  rw [h.inum_eq]
  refine refs_congr_inode ?_
  rw [State.inodes, h.inum_eq, update_self, h.din_eq]

/-- **What the kernel reads** from an inode are its bytes. -/
theorem Loaded.byteAt (h : Loaded s ip inum) (hf : Finished files t img)
    (hdisk : s.disk = img.blocks)
    (hk : s.Has sb ip k) : s.byteAt sb ip k = (layout files inum).getD k 0 := by
  rw [State.Has, h.refs_eq, hdisk] at hk
  rw [State.byteAt, h.refs_eq, hdisk]
  exact hf.laid.byte inum k hk

/-- The root directory does not end with a full block. -/
def Rounded (files : List InputFile) : Prop := (files.length + 2) % 64 ≠ 0

instance (files : List InputFile) : Decidable (Rounded files) :=
  inferInstanceAs (Decidable ((files.length + 2) % 64 ≠ 0))

/-- The root directory has all the blocks that its size says. -/
theorem Finished.root_has (hf : Finished files t img) (hround : Rounded files) {bn : ℕ}
    (hbn : bn * bsize < (area.inode img.blocks rootino).size) :
    bn * bsize < (layout files rootino).length := by
  have hlen : (layout files rootino).length = direntSize * (files.length + 2) := length_rootBytes
  rw [hf.root_size, length_rootBytes] at hbn
  rw [hlen]
  simp only [Rounded, direntSize, dirsiz, bsize] at *
  omega

theorem Finished.size_eq (hf : Finished files t img) (inum : ℕ) :
    (area.inode img.blocks inum).size = sizeOf files inum := by
  rw [sizeOf]
  split_ifs with hroot
  · rw [hroot, hf.root_size]
  · exact hf.size inum hroot

/-- An inode has all the blocks that its size says. -/
theorem Finished.covered (hf : Finished files t img) (hround : Rounded files) {bn : ℕ}
    (hbn : bn * bsize < (area.inode img.blocks inum).size) :
    refs img.blocks (area.inode img.blocks) (blockRef inum bn) ≠ 0 := by
  rw [hf.laid.has_iff]
  rcases eq_or_ne inum rootino with rfl | hne
  · exact hf.root_has hround hbn
  · rwa [hf.size inum hne] at hbn

/-- **The kernel reads the bytes of an inode.** -/
theorem Loaded.contents_eq (h : Loaded s ip inum) (hf : Finished files t img)
    (hdisk : s.disk = img.blocks) (hround : Rounded files) :
    (s.din ip).size = sizeOf files inum ∧ (∀ k < (s.din ip).size, s.Has sb ip k) ∧
      Fs.contents sb s ip = shown files inum := by
  have hsize : (s.din ip).size = sizeOf files inum := by rw [h.din_eq, hdisk, hf.size_eq]
  have hhas : ∀ k < (s.din ip).size, s.Has sb ip k := by
    intro k hk
    rw [State.Has, h.refs_eq, hdisk]
    refine hf.covered hround (Nat.lt_of_le_of_lt (Nat.div_mul_le_self k bsize) ?_)
    rwa [h.din_eq, hdisk] at hk
  refine ⟨hsize, hhas, ?_⟩
  rw [Fs.contents, shown, ← hsize]
  exact List.map_congr_left fun k hk => h.byteAt hf hdisk (hhas k (List.mem_range.1 hk))

/-- **The kernel can read the root directory**, and finds the entries that `mkfs` made. -/
theorem Loaded.root (h : Loaded s ip rootino) (hf : Finished files t img)
    (hdisk : s.disk = img.blocks) (hround : Rounded files)
    (hlen : files.length + 2 ≤ area.ninodes) :
    Readable sb ip s ∧ (s.din ip).type = tDir ∧
      files.length + 2 ≤ (s.din ip).size / direntSize ∧
      ∀ e < (s.din ip).size / direntSize,
        slotOf (Fs.contents sb s ip) e = (rootNames files)[e]? := by
  obtain ⟨hsize, hhas, hcontents⟩ := h.contents_eq hf hdisk hround
  rw [sizeOf, if_pos rfl, length_rootBytes] at hsize
  have hbytes : (layout files rootino).length = direntSize * (files.length + 2) := length_rootBytes
  have harea : area.ninodes = 208 := rfl
  have hread : ∀ k < (s.din ip).size,
      (Fs.contents sb s ip)[k]? = some ((layout files rootino).getD k 0) := by
    intro k hk
    rw [getElem?_contents hk, h.byteAt hf hdisk (hhas k hk)]
  have hdir : Readable sb ip s := by
    refine ⟨hhas, ?_, ?_⟩
    · rw [hsize]
      simp only [direntSize, dirsiz, bsize]
      omega
    · rw [hsize]
      simp only [direntSize, dirsiz, bsize]
      omega
  refine ⟨hdir, ?_, ?_, fun e he => ?_⟩
  · rw [h.din_eq, hdisk, hf.type rootino (by decide) (by simp [rootino]), if_pos rfl]
  · rw [hsize]
    simp only [direntSize, dirsiz, bsize]
    omega
  · have hend := hdir.entry_le he
    rcases Nat.lt_or_ge e (files.length + 2) with hlt | hge
    · -- an entry that was written
      have hbelow : direntSize * e + direntSize ≤ (layout files rootino).length := by
        rw [hbytes, ← Nat.mul_succ]
        exact Nat.mul_le_mul_left _ hlt
      rw [← slotOf_rootBytes (by omega) hlt]
      have hentry : entryAt (Fs.contents sb s ip) (direntSize * e) =
          entryAt (rootBytes files) (direntSize * e) := by
        refine entryAt_congr fun i hi => ?_
        rw [hread _ (by omega), List.getD_eq_getElem?_getD,
          List.getElem?_eq_getElem (by omega : direntSize * e + i < (layout files rootino).length),
          Option.getD_some]
        exact (List.getElem?_eq_getElem (l := rootBytes files) _).symm
      rw [slotOf, slotOf, hentry]
    · -- behind them there are zeros
      have hbehind : (layout files rootino).length ≤ direntSize * e := by
        rw [hbytes]
        exact Nat.mul_le_mul_left _ hge
      have hzero : ∀ i < direntSize, (Fs.contents sb s ip)[direntSize * e + i]? = some 0 := by
        intro i hi
        rw [hread _ (by omega), List.getD_eq_default _ _ (by omega)]
      have hinum : (entryAt (Fs.contents sb s ip) (direntSize * e)).inum = 0 := by
        simp only [entryAt, Dirent.read, List.getD_eq_getElem?_getD, List.getElem?_take,
          List.getElem?_drop]
        rw [if_pos (by decide), if_pos (by decide), hzero 0 (by decide), hzero 1 (by decide)]
        rfl
      rw [slotOf, if_pos hinum, List.getElem?_eq_none (by rwa [length_rootNames])]

/-- Table entry `dp` is the only one in use, and holds the root directory. -/
structure RootOnly (s : Fs.State) (dp : ℕ) : Prop where
  loaded : Loaded s dp rootino
  valid : (s.itable dp).valid = true
  others : ∀ ip ≠ dp, (s.itable ip).ref = 0

/-- The kernel opens the root directory. -/
theorem openRoot_ends {Q : ℕ → List Fs.Event → Fs.State → Prop} (hf : Finished files t img)
    (hempty : ∀ ip, (s.itable ip).ref = 0) (hdisk : s.disk = img.blocks)
    (h : ∀ dp s', RootOnly s' dp → s'.disk = img.blocks → Q dp [] s') :
    Ends (fun _ => False) (openRoot sb) s Q := by
  have htype : (area.inode s.disk rootino).type ≠ 0 := by
    rw [hdisk, hf.type rootino (by decide) (by simp [rootino]), if_pos rfl]
    decide
  rw [openRoot, ends_bind]
  refine iget_ends ?_ ?_ ?_
  · intro ip _ href
    rw [hempty ip] at href
    omega
  · intro ip _ _ _
    have hlock : Runs (ilock sb ip) (s.setInode ip ⟨rootino, 1, false, s.din ip⟩) () [] _ :=
      ilock_runs (update_self ..) (by decide) htype
    rw [ends_bind, hlock.ends_iff, ends_pure]
    refine h ip _ ⟨⟨?_, ?_⟩, ?_, fun ip' hne => ?_⟩ hdisk
    · simp [State.inum]
    · simp [State.din]
    · simp
    · simp [hne, hempty]
  · intro hall
    have href := (hall 0 (by decide)).1
    rw [hempty 0] at href
    omega

/-- An inode that was looked up is opened: the root directory is open already, and others are read
from the disk. -/
theorem ilock_got {s' : Fs.State} {dp : ℕ} (hf : Finished files t img) (hroot : RootOnly s dp)
    (hdisk : s.disk = img.blocks) (hgot : Got s inum ip s') (hpos : 0 < inum)
    (hinum : inum < files.length + 2) (hlen : files.length + 2 ≤ area.ninodes) :
    ∃ s₁, Runs (ilock sb ip) s' () [] s₁ ∧ Loaded s₁ ip inum ∧ s₁.disk = img.blocks := by
  cases hgot with
  | found href hinum' =>
    obtain rfl : ip = dp := by
      by_contra hne
      rw [hroot.others ip hne] at href
      omega
    obtain rfl := hinum'.symm.trans hroot.loaded.inum_eq
    refine ⟨s.setInode ip ((s.itable ip).withRef ((s.itable ip).ref + 1)), ?_, ⟨?_, ?_⟩, hdisk⟩
    · rw [ilock, (get_runs _).silent_iff, if_neg (by simp), if_pos (by simp [hroot.valid])]
      exact runs_pure.2 ⟨rfl, rfl, rfl⟩
    · simpa [State.inum] using hroot.loaded.inum_eq
    · simpa [State.din] using hroot.loaded.din_eq
  | taken hip href hnot =>
    have htype : (area.inode s.disk inum).type ≠ 0 := by
      rw [hdisk, hf.type inum hpos hinum]
      split_ifs
      · decide
      · decide
    refine ⟨_, ilock_runs (update_self ..) (Nat.lt_of_lt_of_le hinum hlen) htype, ⟨?_, ?_⟩, hdisk⟩
    · simp [State.inum]
    · simp [State.din]

/-- The name is that of an entry of the root directory for itself. -/
def InputFile.Dots (f : InputFile) : Prop :=
  f.key = trunc (cstr dot) ∨ f.key = trunc (cstr dotdot)

instance (f : InputFile) : Decidable f.Dots := inferInstanceAs (Decidable (_ ∨ _))

/-- File number `i` is the only one with its name. -/
def Alone (files : List InputFile) (i : ℕ) (f : InputFile) : Prop :=
  files[i]? = some f ∧ ∀ (j : ℕ) (f' : InputFile), files[j]? = some f' → f'.key = f.key → j = i

/-- The inode that the kernel finds under the name of file number `i`. -/
def inodeOf (i : ℕ) (f : InputFile) : ℕ := if f.Dots then rootino else i + 2

/-- The first entry with the name of a file is the one that `mkfs` made for it, unless the name is
that of an entry for the root directory itself. -/
theorem Alone.first {i e : ℕ} {f : InputFile} (h : Alone files i f)
    (he : (rootNames files)[e]? = some (f.key, inum))
    (hfirst : ∀ e₁ < e, ∀ inum, (rootNames files)[e₁]? ≠ some (f.key, inum)) :
    inum = inodeOf i f := by
  rw [inodeOf]
  match e, he with
  | 0, he =>
    obtain ⟨hkey, rfl⟩ := Prod.mk.inj (Option.some.inj (rootNames_zero.symm.trans he))
    rw [if_pos (.inl hkey.symm)]
  | 1, he =>
    obtain ⟨hkey, rfl⟩ := Prod.mk.inj (Option.some.inj (rootNames_one.symm.trans he))
    rw [if_pos (.inr hkey.symm)]
  | j + 2, he =>
    have hdots : ¬ f.Dots := by
      rintro (hkey | hkey)
      · exact hfirst 0 (by omega) rootino (by rw [rootNames_zero, hkey])
      · exact hfirst 1 (by omega) rootino (by rw [rootNames_one, hkey])
    rw [rootNames_file] at he
    obtain ⟨f', hf', hpair⟩ := Option.map_eq_some_iff.1 he
    obtain ⟨hkey, rfl⟩ := Prod.mk.inj hpair
    rw [if_neg hdots, h.2 j f' hf' hkey]

/-- **What the kernel reads under the name of a file.** -/
theorem lookupRead_ends {i : ℕ} {f : InputFile} (hf : Finished files t img)
    (hempty : ∀ ip, (s.itable ip).ref = 0) (hdisk : s.disk = img.blocks) (hround : Rounded files)
    (hlen : files.length + 2 ≤ area.ninodes) (h : Alone files i f) (hn : n < 2 ^ 32) :
    Ends (fun _ => False) (lookupRead sb (cstr f.stripped) n) s fun r _ _ =>
      r = (((min n (shown files (inodeOf i f)).length : ℕ) : ℤ),
        (shown files (inodeOf i f)).take n) := by
  have hlt : i < files.length := (List.getElem?_eq_some_iff.1 h.1).1
  have hfound : 0 < inodeOf i f ∧ inodeOf i f < files.length + 2 := by
    rw [inodeOf, rootino]
    split_ifs <;> omega
  rw [lookupRead, ends_bind]
  refine openRoot_ends hf hempty hdisk fun dp s₁ hroot hdisk₁ => ?_
  obtain ⟨hdir, htype, hentries, hslots⟩ := hroot.loaded.root hf hdisk₁ hround hlen
  have hslot : Names sb dp (cstr f.stripped) s₁ (i + 2) (i + 2) := by
    rw [Names, hslots _ (by omega), rootNames_file, h.1]
    rfl
  -- the table is not full, as it holds the root directory only
  have hroom : ∀ e, ¬ TableFull s₁ e := by
    intro e hfull
    rcases eq_or_ne dp 0 with rfl | hne
    · have href := hfull.2 1 (by decide)
      rw [hroot.others 1 (by decide)] at href
      omega
    · have href := hfull.2 0 (by decide)
      rw [hroot.others 0 hne.symm] at href
      omega
  rw [ends_bind]
  refine (dirlookup_first hdir htype).mono (fun e he => absurd he (hroom e)) fun r t₂ s₂ hr => ?_
  rcases hr.2 with ⟨-, -, hnone⟩ | ⟨ip, e, inum, rfl, hgot, he, hname, hfirst⟩
  · exact absurd hslot (hnone (i + 2) (Nat.zero_le _) (by omega) _)
  · rw [Names, hslots e he] at hname
    obtain rfl := h.first hname fun e₁ hlt inum heq => hfirst e₁ (Nat.zero_le _) hlt inum (by
      rw [Names, hslots e₁ (by omega)]
      exact heq)
    obtain ⟨s₃, hlock, hloaded, hdisk₃⟩ := ilock_got hf hroot hdisk₁ hgot hfound.1 hfound.2 hlen
    obtain ⟨hsize, hhas, hcontents⟩ := hloaded.contents_eq hf hdisk₃ hround
    have hread := readi_runs_of_has (n := n) hhas (Nat.zero_le _) (by omega)
    change Ends _ (readFile sb ip n) s₂ _
    rw [readFile, ends_bind, hlock.ends_iff, hread.ends_iff, hcontents, hsize, List.drop_zero,
      Nat.sub_zero, length_shown]

end Kernel

/-! ### More files than inodes -/

section Inodes

variable {inum : ℕ} {p : List Byte} {s s' : Image} {t : List Event} {files : List InputFile}

theorem preserves_rsect {sec : ℕ} : Preserves Image.freeinode (rsect sec) :=
  preserves_get.bind fun _ => preserves_pure.ite preserves_fail

theorem preserves_wsect {sec : ℕ} {d : Block} : Preserves Image.freeinode (wsect sec d) :=
  preserves_modify fun _ => rfl

theorem preserves_takeBlock : Preserves Image.freeinode (modify Image.takeBlock : Host Unit) :=
  preserves_modify fun _ => rfl

theorem preserves_ensureAddr {din : Dinode} {i : ℕ} :
    Preserves Image.freeinode (ensureAddr din i) :=
  Preserves.ite (preserves_get.bind fun _ => preserves_takeBlock.bind fun _ => preserves_pure)
    preserves_pure

theorem preserves_appendLoop {k off : ℕ} {din : Dinode} :
    Preserves Image.freeinode (appendLoop k din off p) := by
  induction k generalizing din off p with
  | zero => exact preserves_fail
  | succ k ih =>
    have hentry : ∀ ind j, Preserves Image.freeinode (ensureEntry ind j) := fun ind j =>
      preserves_rsect.bind fun _ => Preserves.ite (preserves_get.bind fun _ =>
        preserves_takeBlock.bind fun _ => preserves_wsect.bind fun _ => preserves_pure)
        preserves_pure
    have hfind : ∀ fbn, Preserves Image.freeinode (findBlock din fbn) := fun fbn =>
      Preserves.ite (preserves_ensureAddr.bind fun _ => preserves_pure)
        (preserves_ensureAddr.bind fun _ => (hentry _ _).bind fun _ => preserves_pure)
    exact Preserves.ite (Preserves.ite ((hfind _).bind fun _ => preserves_rsect.bind
      fun _ => preserves_wsect.bind fun _ => ih) preserves_fail) preserves_pure

/-- `iappend` takes no inode. -/
theorem preserves_iappend : Preserves Image.freeinode (iappend inum p) :=
  (preserves_rsect.bind fun _ => preserves_pure).bind fun _ => preserves_appendLoop.bind
    fun _ => preserves_rsect.bind fun _ => preserves_emit.bind fun _ => preserves_wsect

theorem preserves_appendReads {reads : List (List Byte)} :
    Preserves Image.freeinode (appendReads inum reads) := by
  induction reads with
  | nil => exact preserves_pure
  | cons buf reads ih => exact preserves_iappend.bind fun _ => ih

/-- `ialloc` takes one and writes it. -/
theorem ialloc_writes {type r : ℕ} (h : Runs (ialloc type) s r t s') :
    .winode (sb.iblock s.freeinode) ∈ t ∧ s'.freeinode = s.freeinode + 1 := by
  rw [ialloc, (get_runs s).silent_iff, (modify_runs _ s).silent_iff, runs_bind] at h
  obtain ⟨_, t₁, s₁, t₂, hwrite, hpure, rfl⟩ := h
  obtain ⟨-, -, rfl⟩ := runs_pure.1 hpure
  have hkept : s'.freeinode = s.takeInode.freeinode :=
    (preserves_rsect.bind fun _ => preserves_emit.bind fun _ => preserves_wsect) _ _ _
      hwrite.returns
  refine ⟨List.mem_append_left _ ?_, hkept⟩
  rw [winode, runs_bind] at hwrite
  obtain ⟨buf, t₃, s₃, t₄, -, hemit, rfl⟩ := hwrite
  rw [(emit_runs _ s₃).bind_iff] at hemit
  obtain ⟨t₅, -, rfl⟩ := hemit
  exact List.mem_append_right _ List.mem_cons_self

/-- Every file takes an inode. -/
theorem addFiles_writes {root : ℕ} (h : Runs (addFiles root files) s () t s') (i : ℕ)
    (hi : i < files.length) : .winode (sb.iblock (s.freeinode + i)) ∈ t := by
  induction files generalizing s t i with
  | nil => exact absurd hi (Nat.not_lt_zero i)
  | cons f files ih =>
    rw [addFiles, runs_bind] at h
    obtain ⟨_, t₁, s₁, t₂, hfile, hrest, rfl⟩ := h
    rw [addFile, runs_ite] at hfile
    obtain ⟨-, hfile⟩ := hfile.resolve_left fun h => not_runs_fail h.2
    rw [runs_bind] at hfile
    obtain ⟨inum, t₃, s₃, t₄, halloc, happend, rfl⟩ := hfile
    obtain ⟨hwrite, hfree⟩ := ialloc_writes halloc
    have hkept : s₁.freeinode = s₃.freeinode :=
      (preserves_iappend.bind fun _ => preserves_appendReads) _ _ _ happend.returns
    cases i with
    | zero => exact List.mem_append_left _ (List.mem_append_left _ hwrite)
    | succ i =>
      have hmem := ih hrest i (Nat.lt_of_succ_lt_succ hi)
      rw [hkept, hfree, Nat.add_assoc, Nat.add_comm 1] at hmem
      exact List.mem_append_right _ hmem

/-- **File number `i` is written as inode `i + 2`.** -/
theorem main_writes (h : Runs (main files) start () t s) (i : ℕ) (hi : i < files.length) :
    .winode (sb.iblock (i + 2)) ∈ t := by
  rw [main, format_runs.silent_iff, populate, runs_bind] at h
  obtain ⟨root, t₁, s₁, t₂, halloc, hrest, rfl⟩ := h
  have hfree : s₁.freeinode = 2 := (ialloc_writes halloc).2
  rw [runs_ite] at hrest
  obtain ⟨-, hentries⟩ := hrest.resolve_right fun h => not_runs_fail h.2
  rw [runs_bind] at hentries
  obtain ⟨_, t₃, s₃, t₄, hdot, hentries, rfl⟩ := hentries
  rw [runs_bind] at hentries
  obtain ⟨_, t₅, s₅, t₆, hdotdot, hentries, rfl⟩ := hentries
  rw [runs_bind] at hentries
  obtain ⟨_, t₇, s₇, t₈, hfiles, -, rfl⟩ := hentries
  have hmem := addFiles_writes hfiles i hi
  rw [preserves_iappend _ _ _ hdotdot.returns, preserves_iappend _ _ _ hdot.returns, hfree,
    Nat.add_comm] at hmem
  simp [hmem]

end Inodes

/-! ### Agreement -/

/-- The image is what the kernel expects. -/
structure Agrees (files : List InputFile) (t : List Event) (image : Disk) : Prop where
  /-- A file whose name no other file has is read back. -/
  reads : ∀ i f, Alone files i f → ∀ full n, n < 2 ^ 32 → ∃ t s,
    Runs (lookupRead (.read (image 1)) (cstr f.stripped) n) (.boot image full)
      (((min n f.contents.length : ℕ) : ℤ), f.contents.take n) t s
  /-- Every inode has the blocks that its size says. -/
  covered : ∀ inum < area.ninodes, ∀ bn, bn * bsize < (area.inode image inum).size →
    refs image (area.inode image) (blockRef inum bn) ≠ 0
  /-- Inodes are written to the blocks for inodes only. -/
  inodes : ∀ e ∈ t, InArea e
  /-- The free map marks the metadata and the blocks that an inode refers to. -/
  bitmap : ∀ b < fssize, sb.marked image b = true ↔
    b < nmeta ∨ ∃ r, refs image (area.inode image) r = b

section Agreement

variable {t : List Event} {img : Image} {files : List InputFile}

/-- The bits of the free map are those of the blocks below `freeblock`. -/
theorem Finished.marked_iff (hf : Finished files t img) {b : ℕ} (hb : b < fssize) :
    sb.marked img.blocks b = true ↔ b < nmeta ∨
      ∃ r, refs img.blocks (area.inode img.blocks) r = b := by
  have hbit : b < bpb := Nat.lt_trans hb (by decide)
  have hblock : sb.bblock b = sb.bmapstart := by
    rw [Superblock.bblock, Nat.div_eq_of_lt hbit, Nat.zero_add]
  have hused : img.freeblock ≤ bsize * 8 := Nat.le_trans hf.free (by decide)
  have hmeta := hf.laid.nmeta_le
  rw [Superblock.marked, hblock, hf.bitmap, Nat.mod_eq_of_lt hbit, bit_bitmap hused,
    decide_eq_true_eq]
  constructor
  · intro hlt
    rcases Nat.lt_or_ge b nmeta with hb | hb
    · exact .inl hb
    · exact .inr (hf.laid.onto b hb hlt)
  · rintro (hlt | ⟨r, rfl⟩)
    · omega
    · rcases eq_or_ne (refs img.blocks (area.inode img.blocks) r) 0 with h0 | h0
      · rw [h0]
        exact Nat.lt_of_lt_of_le (by decide) hmeta
      · exact hf.laid.lt_free h0

/-- The kernel finds the super block. -/
theorem Finished.read_super (hf : Finished files t img) : Superblock.read (img.blocks 1) = sb := by
  rw [hf.super]
  refine Superblock.read_splice fun i => ?_
  unfold Superblock.field
  split <;> decide

/-- A file is read back exactly if it is what the kernel finds under its name. -/
theorem Finished.reads_iff {s : Fs.State} {i : ℕ} {f : InputFile} (hf : Finished files t img)
    (hempty : ∀ ip, (s.itable ip).ref = 0) (hdisk : s.disk = img.blocks) (hround : Rounded files)
    (hlen : files.length + 2 ≤ area.ninodes) (h : Alone files i f) :
    (∀ n < 2 ^ 32, ∃ t s', Runs (lookupRead (.read (img.blocks 1)) (cstr f.stripped) n) s
      (((min n f.contents.length : ℕ) : ℤ), f.contents.take n) t s') ↔
      f.contents = shown files (inodeOf i f) := by
  rw [hf.read_super]
  constructor
  · intro hall
    -- a read that is long enough shows all bytes of both
    have hlength : f.contents.length ≤ maxfile * bsize := by
      rw [← shown_file h.1, length_shown, sizeOf, if_neg (by rw [rootino]; omega)]
      exact hf.laid.length_le
    have hlength' : (shown files (inodeOf i f)).length ≤ maxfile * bsize := by
      have harea : area.ninodes = 208 := rfl
      have hmax : maxfile * bsize = 274432 := rfl
      rw [length_shown, sizeOf, length_rootBytes]
      split_ifs
      · rw [hmax]
        simp only [direntSize, dirsiz, bsize]
        omega
      · exact hf.laid.length_le
    obtain ⟨t', s', hrun⟩ := hall (maxfile * bsize) (by decide)
    have hread := lookupRead_ends hf hempty hdisk hround hlen h (n := maxfile * bsize) (by decide)
    have heq := (Prod.mk.inj (hrun.ends_iff.1 hread)).2
    rwa [List.take_of_length_le hlength, List.take_of_length_le hlength'] at heq
  · intro heq n hn
    obtain ⟨r, t', s', hrun, rfl⟩ :=
      (lookupRead_ends hf hempty hdisk hround hlen h hn).exists_runs
    rw [heq]
    exact ⟨t', s', hrun⟩

/-- **The kernel reads what `mkfs` has written**, if and only if there are inodes for the files, the
root directory does not end with a full block, and a file that alone is called `.` or `..` holds the
bytes of the root directory. -/
theorem mkfs_agrees (hrun : Runs (main files) start () t img) : Agrees files t img.blocks ↔
    files.length + 2 ≤ area.ninodes ∧ Rounded files ∧
      ∀ i f, Alone files i f → f.Dots → f.contents = shown files rootino := by
  constructor
  · intro h
    have hlen : files.length + 2 ≤ area.ninodes := by
      by_contra hgt
      have harea : area.ninodes = 208 := rfl
      -- inode 208 would be in the block of the free map
      exact Nat.lt_irrefl _ (h.inodes _ (main_writes hrun 206 (by omega))).2
    have hf := Finished.of_runs hrun hlen
    have hround : Rounded files := by
      intro hfull
      have hsize : (files.length + 2) / 64 * bsize < (area.inode img.blocks rootino).size := by
        rw [hf.root_size, length_rootBytes]
        simp only [direntSize, dirsiz, bsize]
        omega
      have hhas := h.covered rootino (by decide) _ hsize
      rw [hf.laid.has_iff] at hhas
      change _ < (rootBytes files).length at hhas
      rw [length_rootBytes] at hhas
      simp only [direntSize, dirsiz, bsize] at hhas
      omega
    refine ⟨hlen, hround, fun i f halone hdots => ?_⟩
    have hread := h.reads i f halone fun _ => false
    rw [hf.reads_iff (fun _ => rfl) rfl hround hlen halone, inodeOf, if_pos hdots] at hread
    exact hread
  · rintro ⟨hlen, hround, hdots⟩
    have hf := Finished.of_runs hrun hlen
    refine ⟨fun i f halone full => ?_, fun inum _ bn hbn => hf.covered hround hbn, hf.trace,
      fun b hb => hf.marked_iff hb⟩
    rw [hf.reads_iff (fun _ => rfl) rfl hround hlen halone, inodeOf]
    split_ifs with hname
    · exact hdots i f halone hname
    · exact (shown_file halone.1).symm

/-- The file `a` with three bytes. -/
def bytesFile : InputFile where
  name := [97]
  reads := [[7, 8, 9]]
  name_nul := by decide
  reads_length := by decide

/-- The kernel reads the three bytes of a file back. -/
theorem mkfs_agrees_one : ∃ t img, Runs (main [bytesFile]) start () t img ∧
    Agrees [bytesFile] t img.blocks ∧ ∃ t s,
      Runs (lookupRead (.read (img.blocks 1)) (cstr [97]) 100) (.boot img.blocks fun _ => false)
        (3, [7, 8, 9]) t s := by
  have hrun : Runs (main [bytesFile]) start () _ _ :=
    format_runs.silent_iff.2 (runs_of_eval (by decide +kernel))
  have hfile : ∀ {i f}, [bytesFile][i]? = some f → i = 0 ∧ f = bytesFile := by
    intro i f hi
    obtain ⟨hlt, heq⟩ := List.getElem?_eq_some_iff.1 hi
    obtain rfl : i = 0 := Nat.lt_one_iff.1 hlt
    exact ⟨rfl, heq.symm⟩
  have hagrees := (mkfs_agrees hrun).2 ⟨by decide, by decide, fun i f halone hdots => by
    rw [(hfile halone.1).2] at hdots
    exact absurd hdots (by decide)⟩
  refine ⟨_, _, hrun, hagrees, ?_⟩
  exact hagrees.reads 0 bytesFile ⟨rfl, fun j f' hj _ => (hfile hj).1⟩ _ 100 (by decide)

/-- Empty files with names of one letter. -/
def letterFile (i : Fin 62) : InputFile where
  name := [BitVec.ofNat 8 (97 + i)]
  reads := []
  name_nul := by
    revert i
    decide
  reads_length := fun _ h => absurd h List.not_mem_nil

theorem letterFile_empty (i : Fin 62) : (letterFile i).Empty := by
  refine ⟨rfl, ?_⟩
  revert i
  decide

/-- **62 empty files**: the 64 entries of the root directory fill its only block, and its size says
that there is another one. -/
theorem mkfs_skips_block :
    ¬ ∀ files t img, Runs (main files) start () t img → Agrees files t img.blocks := by
  intro hall
  have hcount : ((List.finRange 62).map letterFile).length = 62 := by
    rw [List.length_map, List.length_finRange]
  have hlen : ((List.finRange 62).map letterFile).length + 2 ≤ area.ninodes := by
    rw [hcount]
    decide
  have hempty : ∀ f ∈ (List.finRange 62).map letterFile, f.Empty := by
    intro f hf
    obtain ⟨i, -, rfl⟩ := List.mem_map.1 hf
    exact letterFile_empty i
  obtain ⟨t, img, hrun⟩ := main_runs_of_empty hempty hlen
  have hf := Finished.of_runs hrun hlen
  have hsize : 1 * bsize < (area.inode img.blocks rootino).size := by
    rw [hf.root_size, length_rootBytes, hcount]
    decide
  have hhas := (hall _ t img hrun).covered rootino (by decide) 1 hsize
  rw [hf.laid.has_iff] at hhas
  change 1 * bsize < (rootBytes _).length at hhas
  rw [length_rootBytes, hcount] at hhas
  exact absurd hhas (by decide)

end Agreement

end RaidSystem.Mkfs
