/-
**Who owns the descriptors.**

The invariant of the driver for runs in which the calls in progress use different buffers, and in
which no process is killed while it sleeps on its buffer.  A descriptor is free or belongs to the
call of exactly one process.  The first descriptor of a chain whose process sleeps on its buffer is
in exactly one of three places: in the `avail` ring, with the device, or in the `used` ring.  When
it has left the last one, the process is awake and `b->disk` is `0`.

* `State.posted`, `State.held`, `State.pending`, `State.heads` — the three places;
* `State.chain` — the descriptors of a process;
* `Formatted` — the contents of the descriptors of a request;
* `Inv` — the invariant;
* `DistinctBufs`, `SparesSleepers` — the steps that are considered.

That these steps keep the invariant is shown in `RaidSystem/VirtioSteps.lean`.
-/

import RaidSystem.VirtioDescriptors
import Mathlib.Data.List.Perm.Basic
import Mathlib.Data.List.Nodup

set_option autoImplicit false

namespace RaidSystem.Virtio

open Prog

/-! ### Descriptors in use -/

/-- The descriptors of a call. -/
def Pc.chain : Pc → List ℕ
  | .prepared _ idx | .waiting _ idx => [idx 0, idx 1, idx 2]
  | .idle | .asking _ => []

/-- The local variables of a call. -/
def Pc.frame : Pc → Option Frame
  | .asking f | .prepared f _ | .waiting f _ => some f
  | .idle => none

/-- The descriptors of the call of process `p`. -/
def State.chain (s : State) (p : ℕ) : List ℕ := (s.procs p).pc.chain

/-- The chains in the `avail` ring that the device has not taken yet. -/
def State.posted (s : State) : List ℕ :=
  Ring.contents num idxSize s.disk.avail.ring s.device.seen s.disk.avail.idx

/-- The chains held by the device. -/
def State.held (s : State) : List ℕ := s.posted ++ s.device.inflight.map Request.head

/-- The chains in the `used` ring that the driver has not looked at yet. -/
def State.pending (s : State) : List ℕ :=
  Ring.contents num idxSize s.disk.used.ring s.disk.usedIdx s.disk.used.idx

def State.heads (s : State) : List ℕ := s.held ++ s.pending

/-- The descriptors `idx` hold the request of the frame `f`. -/
structure Formatted (d : Disk) (f : Frame) (idx : ℕ → ℕ) : Prop where
  ops : d.ops (idx 0) =
    { type := if f.write then blkOut else blkIn, reserved := 0, sector := f.sector }
  desc₀ : d.desc (idx 0) = { addr := .ops (idx 0), len := 16, flags := descNext, next := idx 1 }
  desc₁ : d.desc (idx 1) =
    { addr := .data f.b, len := bsize, flags := (if f.write then 0 else descWrite) ||| descNext,
      next := idx 2 }
  desc₂ : d.desc (idx 2) = { addr := .status (idx 0), len := 1, flags := descWrite, next := 0 }
  buf : (d.info (idx 0)).b = some f.b

variable {s s' s₁ : State} {d d' : Disk} {f : Frame} {idx : ℕ → ℕ} {p q i h : ℕ} {e : Event}

/-- What a request uses at descriptor `i` is the same in `d'` as in `d`. -/
def SameAt (d d' : Disk) (i : ℕ) : Prop :=
  d'.desc i = d.desc i ∧ d'.ops i = d.ops i ∧ (d'.info i).b = (d.info i).b

theorem SameAt.refl (d : Disk) (i : ℕ) : SameAt d d i := ⟨rfl, rfl, rfl⟩

theorem Formatted.congr (hf : Formatted d f idx)
    (hsame : ∀ i ∈ [idx 0, idx 1, idx 2], SameAt d d' i) : Formatted d' f idx := by
  have h₀ := hsame (idx 0) (by simp)
  have h₁ := hsame (idx 1) (by simp)
  have h₂ := hsame (idx 2) (by simp)
  exact ⟨h₀.2.1.trans hf.ops, h₀.1.trans hf.desc₀, h₁.1.trans hf.desc₁, h₂.1.trans hf.desc₂,
    h₀.2.2.trans hf.buf⟩

/-- `virtio_disk_rw` fills the descriptors. -/
theorem formatted_format (hnodup : [idx 0, idx 1, idx 2].Nodup) (d : Disk) (f : Frame) :
    Formatted (d.format f idx) f idx := by
  have h₀₁ : idx 0 ≠ idx 1 := by simp at hnodup; tauto
  have h₀₂ : idx 0 ≠ idx 2 := by simp at hnodup; tauto
  have h₁₂ : idx 1 ≠ idx 2 := by simp at hnodup; tauto
  constructor
  · simp [Disk.format]
  · simp [Disk.format, h₀₁, h₀₂]
  · simp [Disk.format, h₁₂]
  · simp [Disk.format]
  · simp [Disk.format]

/-- Descriptors that are not among those filled stay the same. -/
theorem sameAt_format (hi : i ∉ [idx 0, idx 1, idx 2]) (d : Disk) (f : Frame) :
    SameAt d (d.format f idx) i := by
  simp only [List.mem_cons, List.not_mem_nil, or_false, not_or] at hi
  simp [SameAt, Disk.format, hi]

/-- What the device reads from the chain of a request. -/
theorem Formatted.readChain (hf : Formatted d f idx) : d.readChain (idx 0) =
    some { head := idx 0, write := f.write, sector := f.sector, buf := f.b, status := idx 0,
           moved := false } := by
  rw [Disk.readChain, hf.desc₀]
  simp only [hf.desc₁, hf.desc₂, hf.ops]
  cases f.write with
  | false => rfl
  | true => rfl

theorem Formatted.linked (hf : Formatted d f idx) : Linked d.desc [idx 0, idx 1, idx 2] := by
  refine ⟨?_, ?_, ?_, ?_, ?_⟩
  · simp [hf.desc₀]
  · rw [hf.desc₀]
  · simp [hf.desc₁]
  · rw [hf.desc₁]
  · simp [Linked, hf.desc₂]

/-! ### The invariant -/

/-- What holds of process `p`. -/
def ProcInv (s : State) (p : ℕ) : Prop :=
  match (s.procs p).pc with
  | .idle => (s.procs p).chan = none
  | .asking _ => (s.procs p).chan = none ∨ (s.procs p).chan = some .free
  | .prepared f idx => s.lock = some (.proc p) ∧ (s.procs p).chan = none ∧
      [idx 0, idx 1, idx 2].Nodup ∧ Formatted s.disk f idx ∧ (s.bufs f.b).disk = true ∧
      idx 0 ∉ s.heads
  | .waiting f idx => [idx 0, idx 1, idx 2].Nodup ∧ Formatted s.disk f idx ∧
      ((s.procs p).chan = some (.buf f.b) ∧ (s.bufs f.b).disk = true ∧ idx 0 ∈ s.heads ∨
        (s.procs p).chan = none ∧ (s.bufs f.b).disk = false ∧ idx 0 ∉ s.heads)

/-- The request `r` is that of a process. -/
def Belongs (s : State) (r : Request) : Prop :=
  ∃ p f idx, (s.procs p).pc = .waiting f idx ∧ r.head = idx 0 ∧ r.status = idx 0 ∧
    r.write = f.write ∧ r.sector = f.sector ∧ r.buf = f.b

/-- The invariant of the driver. -/
structure Inv (s : State) : Prop where
  seen_lt : s.device.seen < idxSize
  avail_lt : s.disk.avail.idx < idxSize
  usedIdx_lt : s.disk.usedIdx < idxSize
  used_lt : s.disk.used.idx < idxSize
  lt : ∀ p, ∀ i ∈ s.chain p, i < num
  free_iff : ∀ i < num, s.disk.free i = true ↔ ∀ p, i ∉ s.chain p
  disjoint : ∀ p q i, i ∈ s.chain p → i ∈ s.chain q → p = q
  proc : ∀ p, ProcInv s p
  nodup : s.heads.Nodup
  owner : ∀ h ∈ s.heads, ∃ p f idx, (s.procs p).pc = .waiting f idx ∧ idx 0 = h
  bufs : ∀ p q f g, (s.procs p).pc.frame = some f → (s.procs q).pc.frame = some g → f.b = g.b →
    p = q
  inflight : ∀ r ∈ s.device.inflight, Belongs s r

/-- A call uses a buffer that no call in progress uses. -/
def DistinctBufs (s : State) : Action → Prop
  | .call _ c => ∀ q f, (s.procs q).pc.frame = some f → f.b ≠ c.b
  | _ => True

/-- No process is killed while it sleeps on its buffer. -/
def SparesSleepers (s : State) : Action → Prop
  | .kill p => ∀ b, (s.procs p).chan ≠ some (.buf b)
  | _ => True

section Chains

theorem chain_waiting (hpc : (s.procs p).pc = .waiting f idx) :
    s.chain p = [idx 0, idx 1, idx 2] := by
  rw [State.chain, hpc, Pc.chain]

theorem chain_prepared (hpc : (s.procs p).pc = .prepared f idx) :
    s.chain p = [idx 0, idx 1, idx 2] := by
  rw [State.chain, hpc, Pc.chain]

theorem head_mem_chain (hpc : (s.procs p).pc = .waiting f idx) : idx 0 ∈ s.chain p := by
  simp [chain_waiting hpc]

theorem procInv_waiting (hpc : (s.procs p).pc = .waiting f idx) : ProcInv s p ↔
    [idx 0, idx 1, idx 2].Nodup ∧ Formatted s.disk f idx ∧
      ((s.procs p).chan = some (.buf f.b) ∧ (s.bufs f.b).disk = true ∧ idx 0 ∈ s.heads ∨
        (s.procs p).chan = none ∧ (s.bufs f.b).disk = false ∧ idx 0 ∉ s.heads) := by
  simp only [ProcInv, hpc]

theorem procInv_prepared (hpc : (s.procs p).pc = .prepared f idx) : ProcInv s p ↔
    s.lock = some (.proc p) ∧ (s.procs p).chan = none ∧ [idx 0, idx 1, idx 2].Nodup ∧
      Formatted s.disk f idx ∧ (s.bufs f.b).disk = true ∧ idx 0 ∉ s.heads := by
  simp only [ProcInv, hpc]

theorem procInv_asking (hpc : (s.procs p).pc = .asking f) :
    ProcInv s p ↔ (s.procs p).chan = none ∨ (s.procs p).chan = some .free := by
  simp only [ProcInv, hpc]

theorem procInv_idle (hpc : (s.procs p).pc = .idle) : ProcInv s p ↔ (s.procs p).chan = none := by
  simp only [ProcInv, hpc]

/-- A process is not affected by a step that leaves alone what it looks at. -/
theorem ProcInv.congr (hp : ProcInv s p) (hpc : (s'.procs p).pc = (s.procs p).pc)
    (hchan : (s'.procs p).chan = (s.procs p).chan ∨
      (s.procs p).chan = some .free ∧ (s'.procs p).chan = none)
    (hlock : s.lock = some (.proc p) → s'.lock = s.lock)
    (hsame : ∀ i ∈ s.chain p, SameAt s.disk s'.disk i)
    (hdisk : ∀ f, (s.procs p).pc.frame = some f → (s'.bufs f.b).disk = (s.bufs f.b).disk)
    (hheads : ∀ i ∈ s.chain p, i ∈ s'.heads ↔ i ∈ s.heads) : ProcInv s' p := by
  cases h : (s.procs p).pc with
  | idle =>
    rw [procInv_idle h] at hp
    rw [procInv_idle (hpc.trans h)]
    rcases hchan with hc | ⟨-, hc⟩
    · rw [hc, hp]
    · exact hc
  | asking f =>
    rw [procInv_asking h] at hp
    rw [procInv_asking (hpc.trans h)]
    rcases hchan with hc | ⟨-, hc⟩
    · rwa [hc]
    · exact .inl hc
  | prepared f idx =>
    rw [procInv_prepared h] at hp
    obtain ⟨hl, hc, hnodup, hfmt, hb, hnot⟩ := hp
    rw [chain_prepared h] at hsame hheads
    rw [procInv_prepared (hpc.trans h), hdisk f (by rw [h, Pc.frame]), hheads _ (by simp), hlock hl]
    refine ⟨hl, ?_, hnodup, hfmt.congr hsame, hb, hnot⟩
    rcases hchan with hc' | ⟨hc', -⟩
    · rw [hc', hc]
    · rw [hc] at hc'
      cases hc'
  | waiting f idx =>
    rw [procInv_waiting h] at hp
    obtain ⟨hnodup, hfmt, hcase⟩ := hp
    rw [chain_waiting h] at hsame hheads
    have hchan' : (s'.procs p).chan = (s.procs p).chan := by
      rcases hchan with hc | ⟨hc, -⟩
      · exact hc
      · rcases hcase with ⟨hc', -⟩ | ⟨hc', -⟩
        · rw [hc] at hc'
          cases hc'
        · rw [hc] at hc'
          cases hc'
    rw [procInv_waiting (hpc.trans h), hdisk f (by rw [h, Pc.frame]), hheads _ (by simp), hchan']
    exact ⟨hnodup, hfmt.congr hsame, hcase⟩

end Chains

namespace Inv

variable (hI : Inv s)

include hI

/-- The owner of a chain in one of the three places sleeps on its buffer. -/
theorem owner_asleep (hh : h ∈ s.heads) : ∃ p f idx, (s.procs p).pc = .waiting f idx ∧ idx 0 = h ∧
    (s.procs p).chan = some (.buf f.b) ∧ Formatted s.disk f idx := by
  obtain ⟨p, f, idx, hpc, rfl⟩ := hI.owner h hh
  obtain ⟨-, hfmt, hcase⟩ := (procInv_waiting hpc).1 (hI.proc p)
  rcases hcase with ⟨hc, -⟩ | ⟨-, -, hnot⟩
  · exact ⟨p, f, idx, hpc, rfl, hc, hfmt⟩
  · exact absurd hh hnot

theorem heads_lt (hh : h ∈ s.heads) : h < num := by
  obtain ⟨p, f, idx, hpc, rfl⟩ := hI.owner h hh
  exact hI.lt p _ (head_mem_chain hpc)

/-- There are never more chains than descriptors. -/
theorem heads_length_le : s.heads.length ≤ num := by
  have hsub : s.heads ⊆ List.range num := fun i hi => List.mem_range.2 (hI.heads_lt hi)
  have hlen := (List.subperm_of_subset hI.nodup hsub).length_le
  rwa [List.length_range] at hlen

/-- A chain that is in none of the three places leaves room in the rings. -/
theorem heads_length (hlt : h < num) (hh : h ∉ s.heads) : s.heads.length < num := by
  have hsub : h :: s.heads ⊆ List.range num := by
    intro i hi
    rw [List.mem_range]
    rcases List.mem_cons.1 hi with rfl | hi
    · exact hlt
    · exact hI.heads_lt hi
  have hlen := (List.subperm_of_subset (List.nodup_cons.2 ⟨hh, hI.nodup⟩) hsub).length_le
  rwa [List.length_cons, List.length_range] at hlen

end Inv

/-- The invariant holds when the driver starts. -/
theorem State.Booted.inv (hs : s.Booted) : Inv s := by
  have hchain : ∀ p, s.chain p = [] := fun p => by rw [State.chain, hs.procs p, Pc.chain]
  have hheads : s.heads = [] := by
    simp [State.heads, State.held, State.posted, State.pending, hs.inflight, hs.seen, hs.availIdx,
      hs.usedIdx, hs.used, Ring.contents_self]
  constructor
  · rw [hs.seen]; decide
  · rw [hs.availIdx]; decide
  · rw [hs.usedIdx]; decide
  · rw [hs.used]; decide
  · simp [hchain]
  · intro i hi
    simp [hchain, hs.free i hi]
  · simp [hchain]
  · intro p
    rw [procInv_idle (by rw [hs.procs p]), hs.procs p]
  · rw [hheads]
    exact List.nodup_nil
  · simp [hheads]
  · intro p q f g hf
    rw [hs.procs p] at hf
    cases hf
  · simp [hs.inflight]

end RaidSystem.Virtio
