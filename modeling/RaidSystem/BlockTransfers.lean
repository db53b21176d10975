/-
**Concurrent block transfers.**

`read_block` and `write_block` go through `virtio_disk_rw` with one buffer for each disk, the
`transfer_buffer`.  Its lock is initialised but never taken.  A call that is alone on its disk is
safe (`transfers_separate`): what it writes arrives in its block and nowhere else, and what it reads
was in its block at some time while it ran.  Two calls at a time are not
(`second_write_overwrites`): the second one stores its data in the buffer that the device has yet to
read for the first.

* `inProgress` — the call that a process is in, with the steps since it began;
* `Separate` — what is asked of a run;
* `BlockStep`, `Alone` — steps of the two functions, and calls that are alone;
* `TransferInv` — the invariant.
-/

import RaidSystem.VirtioGuarantees

set_option autoImplicit false

namespace RaidSystem.Virtio

open Prog Function

/-! ### What is asked -/

/-- The `transfer_buffer` of the disk. -/
def transferBuffer : ℕ := 0

/-- A step of a run. -/
abbrev Entry := Record Action Event State

/-- The call of process `p` that begins with a step. -/
def begins (t : Entry) (p : ℕ) : Option Rw :=
  match t.call with
  | .call q c => if q = p then some c else none
  | _ => none

/-- The call of process `p` ends with a step. -/
def ends (t : Entry) (p : ℕ) : Bool :=
  match t.call, t.reply with
  | .run q, .returned _ _ _ => q == p
  | _, _ => false

/-- The call that process `p` is in, and the steps since its beginning, the latest first. -/
def inProgress : List Entry → ℕ → Option (Rw × List Entry)
  | [], _ => none
  | t :: l, p =>
    match begins t p with
    | some c => some (c, [])
    | none => if ends t p then none else (inProgress l p).map fun x => (x.1, t :: x.2)

/-- The contents of block `k`. -/
def State.block (s : State) (k : ℕ) : Block :=
  (s.device.sectors (2 * k), s.device.sectors (2 * k + 1))

/-- In step `t` the device stores `x` in block `k`, and nothing else. -/
def Stores (t : Entry) (k : ℕ) (x : Block) : Prop :=
  (∃ n, t.call = .transfer n) ∧
    t.after.device.sectors = storeBlock t.before.device.sectors (2 * k) x

/-- The step `t`, after the steps `l`, does not mix calls up. -/
structure SeparateStep (l : List Entry) (t : Entry) : Prop where
  /-- The disk changes only when a write in progress stores its data in its block. -/
  stored : t.after.device.sectors = t.before.device.sectors ∨
    ∃ p c since x, inProgress l p = some (c, since) ∧ c.data = some x ∧ Stores t c.blockno x
  /-- A write that returns has stored its data. -/
  written : ∀ p b h y c since x, t.call = .run p → t.reply = .returned b h y →
    inProgress l p = some (c, since) → c.data = some x → ∃ u ∈ since, Stores u c.blockno x
  /-- A read that returns has the contents that the block had at some time since it began. -/
  read : ∀ p b h y c since, t.call = .run p → t.reply = .returned b h y →
    inProgress l p = some (c, since) → c.data = none → ∃ u ∈ since, y = u.before.block c.blockno

/-- No step of the run mixes calls up. -/
def Separate : List Entry → Prop
  | [] => True
  | t :: l => SeparateStep l t ∧ Separate l

/-- The steps of runs in which all calls are `read_block` and `write_block`, and nobody is
killed. -/
def BlockStep : Action → Prop
  | .call _ c => c.b = transferBuffer
  | .kill _ => False
  | _ => True

/-- A call begins when no other is in progress, with a block number that is not negative. -/
def Alone (s : State) : Action → Prop
  | .call _ c => (∀ q, (s.procs q).pc = .idle) ∧ c.blockno < 2 ^ 31
  | _ => True

variable {s s' s₀ : State} {f : Frame} {idx : ℕ → ℕ} {p q k n : ℕ} {e : Event} {a : Action}
  {l since : List Entry} {t : Entry} {c : Rw} {r : Request} {x : Block}

section InProgress

theorem inProgress_begins (hb : begins t p = some c) : inProgress (t :: l) p = some (c, []) := by
  rw [inProgress, hb]

theorem inProgress_ends (hb : begins t p = none) (he : ends t p = true) :
    inProgress (t :: l) p = none := by
  rw [inProgress, hb]
  simp [he]

theorem inProgress_goes_on (hb : begins t p = none) (he : ends t p = false) :
    inProgress (t :: l) p = (inProgress l p).map fun x => (x.1, t :: x.2) := by
  rw [inProgress, hb]
  simp [he]

/-- A call that goes on: it was in progress before the step. -/
theorem inProgress_cons (hb : begins t p = none) (he : ends t p = false)
    (h : inProgress (t :: l) p = some (c, since)) :
    ∃ since', inProgress l p = some (c, since') ∧ since = t :: since' := by
  rw [inProgress_goes_on hb he, Option.map_eq_some_iff] at h
  obtain ⟨y, hy, heq⟩ := h
  obtain ⟨rfl, rfl⟩ := Prod.mk.inj heq
  exact ⟨y.2, hy, rfl⟩

end InProgress

/-! ### The invariant -/

/-- The data of the call of process `p` have been moved: the process has been woken up, or its chain
is back from the device, or the device is about to report it. -/
def Finished (s : State) (p : ℕ) : Prop :=
  ∃ f idx, (s.procs p).pc = .waiting f idx ∧ ((s.procs p).chan = none ∨
    (idx 0 ∈ s.pending ∧ (s.disk.info (idx 0)).status = 0) ∨
    ∃ r ∈ s.device.inflight, r.head = idx 0 ∧ r.moved = true)

/-- The call `c` has done its work in one of the steps `since`. -/
structure Done (s : State) (c : Rw) (since : List Entry) : Prop where
  write : ∀ x, c.data = some x → ∃ u ∈ since, Stores u c.blockno x
  read : c.data = none → ∃ u ∈ since, (s.bufs transferBuffer).data = u.before.block c.blockno

theorem Done.goes_on (h : Done s c since) (t : Entry)
    (hdata : (s'.bufs transferBuffer).data = (s.bufs transferBuffer).data) :
    Done s' c (t :: since) := by
  refine ⟨?_, ?_⟩
  · intro x hx
    obtain ⟨u, hu, hst⟩ := h.write x hx
    exact ⟨u, List.mem_cons_of_mem _ hu, hst⟩
  · intro hnone
    obtain ⟨u, hu, heq⟩ := h.read hnone
    exact ⟨u, List.mem_cons_of_mem _ hu, hdata.trans heq⟩

/-- What holds along a run in which calls are alone. -/
structure TransferInv (l : List Entry) (s : State) : Prop where
  inv : Inv s
  idle : ∀ p, inProgress l p = none → (s.procs p).pc = .idle
  busy : ∀ p c since, inProgress l p = some (c, since) →
    (s.procs p).pc.frame = some c.frame ∧ c.b = transferBuffer ∧ c.blockno < 2 ^ 31
  data : ∀ p c since x, inProgress l p = some (c, since) → c.data = some x →
    (s.bufs transferBuffer).data = x
  done : ∀ p c since, inProgress l p = some (c, since) → Finished s p → Done s c since

theorem frame_eq_none_iff {pc : Pc} : pc.frame = none ↔ pc = .idle := by
  cases pc <;> simp [Pc.frame]

/-- The sector of a block that is not negative. -/
theorem sectorOf_eq (hk : k < 2 ^ 31) : sectorOf k = 2 * k := by
  have hfactor : bsize / 512 = 2 := rfl
  rw [sectorOf, hfactor, Nat.mod_eq_of_lt (by omega)]
  omega

namespace TransferInv

variable (hT : TransferInv l s)

include hT

/-- A process that is not idle is in a call. -/
theorem exists_inProgress (hf : (s.procs p).pc.frame = some f) :
    ∃ c since, inProgress l p = some (c, since) ∧ f = c.frame := by
  cases hp : inProgress l p with
  | none =>
    rw [hT.idle p hp] at hf
    cases hf
  | some y =>
    obtain ⟨c, since⟩ := y
    refine ⟨c, since, rfl, ?_⟩
    rw [(hT.busy p c since hp).1] at hf
    exact (Option.some_inj.1 hf).symm

/-- There is at most one call in progress. -/
theorem unique {g : Frame} (hf : (s.procs p).pc.frame = some f)
    (hg : (s.procs q).pc.frame = some g) :
    p = q := by
  obtain ⟨c, since, hp, rfl⟩ := hT.exists_inProgress hf
  obtain ⟨c', since', hq, rfl⟩ := hT.exists_inProgress hg
  refine hT.inv.bufs p q _ _ hf hg ?_
  exact (hT.busy p c since hp).2.1.trans (hT.busy q c' since' hq).2.1.symm

/-- The invariant after a step in which no call begins, does its work or ends. -/
theorem goes_on (hI : Inv s') (hb : ∀ p, begins t p = none) (he : ∀ p, ends t p = false)
    (hframe : ∀ p, (s'.procs p).pc.frame = (s.procs p).pc.frame)
    (hdata : (s'.bufs transferBuffer).data = (s.bufs transferBuffer).data)
    (hfinished : ∀ p, Finished s' p → Finished s p) : TransferInv (t :: l) s' := by
  refine ⟨hI, ?_, ?_, ?_, ?_⟩
  · intro p hp
    rw [inProgress_goes_on (hb p) (he p), Option.map_eq_none_iff] at hp
    rw [← frame_eq_none_iff, hframe p, frame_eq_none_iff]
    exact hT.idle p hp
  · intro p c since hp
    obtain ⟨since', hp', -⟩ := inProgress_cons (hb p) (he p) hp
    rw [hframe p]
    exact hT.busy p c since' hp'
  · intro p c since x hp hx
    obtain ⟨since', hp', -⟩ := inProgress_cons (hb p) (he p) hp
    rw [hdata]
    exact hT.data p c since' x hp' hx
  · intro p c since hp hfin
    obtain ⟨since', hp', rfl⟩ := inProgress_cons (hb p) (he p) hp
    exact (hT.done p c since' hp' (hfinished p hfin)).goes_on t hdata

end TransferInv

/-- A step that leaves the disk alone and ends no call mixes nothing up. -/
theorem separateStep_of_quiet (hsectors : t.after.device.sectors = t.before.device.sectors)
    (he : ∀ p, ends t p = false) : SeparateStep l t := by
  have hno : ∀ p b h y, t.call = .run p → t.reply ≠ .returned b h y := by
    intro p b h y hcall hreply
    have hends := he p
    simp [ends, hcall, hreply] at hends
  refine ⟨.inl hsectors, ?_, ?_⟩
  · intro p b h y c since x hcall hreply
    exact absurd hreply (hno p b h y hcall)
  · intro p b h y c since hcall hreply
    exact absurd hreply (hno p b h y hcall)

/-! ### The steps -/

/-- The buffers after an attempt to allocate descriptors hold the same data. -/
theorem alloc_data (hr : Returns (virtioDiskRwAlloc p f) s e s') (b : ℕ) :
    (s'.bufs b).data = (s.bufs b).data := by
  obtain ⟨-, ⟨s₁, hback, rfl⟩ | ⟨s₁, idx, ht, rfl⟩⟩ := returns_virtioDiskRwAlloc hr
  · rw [hback.rest]
    rfl
  · rw [ht.rest]
    rcases eq_or_ne b f.b with rfl | hb
    · simp [State.prepare]
    · simp [State.prepare, hb]

/-- What an attempt to allocate descriptors leaves: process `p` is in the call `f` and has not
submitted it, and the device has noticed nothing. -/
theorem alloc_procs (hr : Returns (virtioDiskRwAlloc p f) s e s') :
    (s'.procs p).pc.frame = some f ∧ ¬ Finished s' p ∧
      (∀ q ≠ p, (s'.procs q).pc = (s.procs q).pc) ∧ s'.device = s.device := by
  obtain ⟨-, ⟨s₁, hback, rfl⟩ | ⟨s₁, idx, ht, rfl⟩⟩ := returns_virtioDiskRwAlloc hr
  · refine ⟨?_, ?_, ?_, ?_⟩
    · simp [State.sleep, Pc.frame]
    · rintro ⟨g, j, hpc, -⟩
      simp [State.sleep] at hpc
    · intro q hq
      simp only [State.sleep, update_of_ne hq]
      exact hback.procs.pc q
    · rw [hback.rest]
      rfl
  · refine ⟨?_, ?_, ?_, ?_⟩
    · simp [State.prepare, Pc.frame]
    · rintro ⟨g, j, hpc, -⟩
      simp [State.prepare] at hpc
    · intro q hq
      simp only [State.prepare, update_of_ne hq]
      rw [ht.rest]
    · rw [ht.rest]
      rfl

namespace TransferInv

section

variable (hT : TransferInv l s)

include hT

/-- A call begins. -/
theorem call (hbuf : c.b = transferBuffer) (halone : ∀ q, (s.procs q).pc = .idle)
    (hk : c.blockno < 2 ^ 31) (hr : Returns (exec (.call p c)) s e s') :
    TransferInv (⟨s, .call p c, e, s'⟩ :: l) s' ∧
      SeparateStep l ⟨s, .call p c, e, s'⟩ := by
  have hI : Inv s' := hT.inv.call (fun q f hq => by rw [halone q] at hq; cases hq) hr
  obtain ⟨-, -, hr⟩ := returns_call hr
  obtain ⟨hframe, hnot, hother, hdevice⟩ := alloc_procs hr
  have hnone : ∀ q, inProgress l q = none := by
    intro q
    cases hq : inProgress l q with
    | none => rfl
    | some y =>
      have hbusy := (hT.busy q y.1 y.2 hq).1
      rw [halone q] at hbusy
      cases hbusy
  have hbegins : ∀ q, q ≠ p →
      begins ⟨s, .call p c, e, s'⟩ q = none :=
    fun q hq => if_neg (Ne.symm hq)
  have hself : inProgress (⟨s, .call p c, e, s'⟩ :: l) p =
      some (c, []) := inProgress_begins (if_pos rfl)
  have hothers : ∀ q, q ≠ p →
      inProgress (⟨s, .call p c, e, s'⟩ :: l) q = none := by
    intro q hq
    rw [inProgress_goes_on (hbegins q hq) rfl, hnone q, Option.map_none]
  -- the only call in progress is the new one
  have honly : ∀ q c' since, inProgress (⟨s, .call p c, e, s'⟩ :: l) q = some (c', since) → q = p ∧
      c' = c ∧ since = [] := by
    intro q c' since hq
    rcases eq_or_ne q p with rfl | hne
    · rw [hself] at hq
      obtain ⟨rfl, rfl⟩ := Prod.mk.inj (Option.some_inj.1 hq)
      exact ⟨rfl, rfl, rfl⟩
    · rw [hothers q hne] at hq
      cases hq
  refine ⟨⟨hI, ?_, ?_, ?_, ?_⟩, separateStep_of_quiet (by rw [hdevice]) fun _ => rfl⟩
  · intro q hq
    rcases eq_or_ne q p with rfl | hne
    · rw [hself] at hq
      cases hq
    · rw [hother q hne]
      exact halone q
  · intro q c' since hq
    obtain ⟨rfl, rfl, rfl⟩ := honly q c' since hq
    exact ⟨hframe, hbuf, hk⟩
  · intro q c' since x hq hx
    obtain ⟨rfl, rfl, rfl⟩ := honly q c' since hq
    rw [alloc_data hr transferBuffer, ← hbuf]
    simp [Rw.fill, hx]
  · intro q c' since hq hfin
    obtain ⟨rfl, rfl, rfl⟩ := honly q c' since hq
    exact absurd hfin hnot

/-- The call of a process ends. -/
theorem returned {b h : ℕ} {y : Block} (hr : Returns (exec (.run p)) s (.returned b h y) s') :
    TransferInv (⟨s, .run p, .returned b h y, s'⟩ :: l) s' ∧
      SeparateStep l ⟨s, .run p, .returned b h y, s'⟩ := by
  have hI := hT.inv.run hr
  obtain ⟨hchan, ⟨f, hpc, -, hr⟩ | ⟨f, idx, hpc, hr⟩ | ⟨f, idx, hpc, hr⟩⟩ := returns_run hr
  · cases (returns_virtioDiskRwAlloc hr).1
  · cases (returns_virtioDiskRwSubmit.1 hr).1
  obtain ⟨s₁, hfreed, hr₁⟩ := hT.inv.virtioDiskRwFinish_returns hpc
  obtain ⟨he, rfl⟩ := hr.unique hr₁
  obtain ⟨rfl, rfl, rfl⟩ := Event.returned.inj he
  have hframe : (s.procs p).pc.frame = some f := by rw [hpc, Pc.frame]
  have hfin : Finished s p := ⟨f, idx, hpc, .inl hchan⟩
  obtain ⟨c, since, hp, rfl⟩ := hT.exists_inProgress hframe
  have hdone := hT.done p c since hp hfin
  generalize ht : (⟨s, .run p, .returned c.frame.b (idx 0) (s.bufs c.frame.b).data,
    s₁.leave p⟩ : Entry) = t
  -- nobody is in a call any more
  have hnone : ∀ q, inProgress (t :: l) q = none := by
    intro q
    have hbegins : begins t q = none := by rw [← ht]; rfl
    rcases eq_or_ne q p with rfl | hne
    · exact inProgress_ends hbegins (by simp [← ht, ends])
    · rw [inProgress_goes_on hbegins (by simpa [← ht, ends] using Ne.symm hne)]
      cases hq : inProgress l q with
      | none => rfl
      | some y => exact absurd (hT.unique (hT.busy q y.1 y.2 hq).1 hframe) hne
  have hbuf : c.frame.b = transferBuffer := (hT.busy p c since hp).2.1
  have hidle : ∀ q, ((s₁.leave p).procs q).pc = .idle := by
    intro q
    rcases eq_or_ne q p with rfl | hne
    · simp [State.leave]
    · simp only [State.leave, update_of_ne hne]
      rw [hfreed.procs.pc q]
      cases hq : inProgress l q with
      | none => exact hT.idle q hq
      | some y => exact absurd (hT.unique (hT.busy q y.1 y.2 hq).1 hframe) hne
  refine ⟨⟨hI, fun q _ => hidle q, ?_, ?_, ?_⟩, ?_⟩
  · intro q c' since' hq
    rw [hnone q] at hq
    cases hq
  · intro q c' since' x hq
    rw [hnone q] at hq
    cases hq
  · intro q c' since' hq
    rw [hnone q] at hq
    cases hq
  subst ht
  refine ⟨.inl ?_, ?_, ?_⟩
  · change s₁.device.sectors = s.device.sectors
    rw [hfreed.rest]
    rfl
  · intro q b h y c' since' x hcall _ hq hx
    obtain rfl := Action.run.inj hcall
    obtain ⟨rfl, rfl⟩ := Prod.mk.inj (Option.mem_unique hp hq)
    exact hdone.write x hx
  · intro q b h y c' since' hcall hreply hq hx
    obtain rfl := Action.run.inj hcall
    obtain ⟨rfl, rfl⟩ := Prod.mk.inj (Option.mem_unique hp hq)
    obtain ⟨-, -, rfl⟩ := Event.returned.inj hreply
    rw [hbuf]
    exact hdone.read hx

/-- Only the process in the call `f` can have its data moved. -/
theorem not_finished (hf : (s.procs p).pc.frame = some f) (hq : q ≠ p)
    (hpc : (s'.procs q).pc = (s.procs q).pc) : ¬ Finished s' q := by
  rintro ⟨g, j, hwait, -⟩
  rw [hpc] at hwait
  exact hq (hT.unique (by rw [hwait, Pc.frame]) hf)

/-- A process goes on with its call. -/
theorem run (hr : Returns (exec (.run p)) s .silent s') :
    TransferInv (⟨s, .run p, .silent, s'⟩ :: l) s' ∧ SeparateStep l ⟨s, .run p, .silent, s'⟩ := by
  have hI := hT.inv.run hr
  obtain ⟨-, ⟨f, hpc, -, hr⟩ | ⟨f, idx, hpc, hr⟩ | ⟨f, idx, hpc, hr⟩⟩ := returns_run hr
  · have hf : (s.procs p).pc.frame = some f := by rw [hpc, Pc.frame]
    obtain ⟨hframe, hnot, hother, hdevice⟩ := alloc_procs hr
    refine ⟨hT.goes_on hI (fun _ => rfl) (fun _ => rfl) ?_ (alloc_data hr _) ?_,
      separateStep_of_quiet (by rw [hdevice]) fun _ => rfl⟩
    · intro q
      rcases eq_or_ne q p with rfl | hq
      · rw [hframe, hf]
      · rw [hother q hq]
    · intro q hfin
      rcases eq_or_ne q p with rfl | hq
      · exact absurd hfin hnot
      · exact absurd hfin (hT.not_finished hf hq (hother q hq))
  · have hf : (s.procs p).pc.frame = some f := by rw [hpc, Pc.frame]
    obtain ⟨-, -, -, -, -, hheads⟩ := (procInv_prepared hpc).1 (hT.inv.proc p)
    obtain ⟨-, rfl⟩ := returns_virtioDiskRwSubmit.1 hr
    have hself : (s.submit p f idx).procs p = { pc := .waiting f idx, chan := some (.buf f.b) } :=
      update_self p _ _
    have hother : ∀ q ≠ p, (s.submit p f idx).procs q = s.procs q :=
      fun q hq => update_of_ne hq _ _
    refine ⟨hT.goes_on hI (fun _ => rfl) (fun _ => rfl) ?_ rfl ?_,
      separateStep_of_quiet rfl fun _ => rfl⟩
    · intro q
      rcases eq_or_ne q p with rfl | hq
      · rw [hself, hf]
        rfl
      · rw [hother q hq]
    · intro q hfin
      rcases eq_or_ne q p with rfl | hq
      · -- the device has not seen the chain yet
        obtain ⟨g, j, hwait, hcase⟩ := hfin
        rw [hself] at hwait hcase
        obtain ⟨rfl, rfl⟩ := Pc.waiting.inj hwait
        rcases hcase with hc | ⟨hmem, -⟩ | ⟨r, hmem, hhead, -⟩
        · cases hc
        · exact absurd (List.mem_append_right _ hmem) hheads
        · exact absurd (hhead ▸ head_mem_heads hmem) hheads
      · exact absurd hfin (hT.not_finished hf hq (by rw [hother q hq]))
  · obtain ⟨s₁, -, hr₁⟩ := hT.inv.virtioDiskRwFinish_returns hpc
    cases (hr.unique hr₁).1

theorem fetch (hr : Returns (exec .fetch) s e s') :
    TransferInv (⟨s, .fetch, e, s'⟩ :: l) s' ∧ SeparateStep l ⟨s, .fetch, e, s'⟩ := by
  have hI := hT.inv.fetch hr
  obtain ⟨-, r, rest, -, -, hmoved, rfl, -⟩ := hT.inv.returns_fetch hr
  refine ⟨hT.goes_on hI (fun _ => rfl) (fun _ => rfl) (fun _ => rfl) rfl ?_,
    separateStep_of_quiet rfl fun _ => rfl⟩
  rintro q ⟨g, j, hwait, hcase⟩
  refine ⟨g, j, hwait, ?_⟩
  rcases hcase with hc | hpending | ⟨r', hmem, hhead, hmoved'⟩
  · exact .inl hc
  · exact .inr (.inl hpending)
  · -- the new request is not moved yet
    rcases List.mem_append.1 hmem with hmem | hmem
    · exact .inr (.inr ⟨r', hmem, hhead, hmoved'⟩)
    · rw [List.mem_singleton.1 hmem, hmoved] at hmoved'
      cases hmoved'

theorem complete {success : Bool} (hr : Returns (exec (.complete n success)) s e s') :
    TransferInv (⟨s, .complete n success, e, s'⟩ :: l) s' ∧
      SeparateStep l ⟨s, .complete n success, e, s'⟩ := by
  have hI := hT.inv.complete hr
  obtain ⟨r, hget, hmoved, -, rfl⟩ := returns_complete hr
  have hr := List.mem_of_getElem? hget
  obtain ⟨-, -, idx, -, hhead, hstatus, -⟩ := hT.inv.inflight r hr
  refine ⟨hT.goes_on hI (fun _ => rfl) (fun _ => rfl) (fun _ => rfl) rfl ?_,
    separateStep_of_quiet rfl fun _ => rfl⟩
  rintro q ⟨g, j, hwait, hcase⟩
  refine ⟨g, j, hwait, ?_⟩
  rcases hcase with hc | ⟨hpending, hzero⟩ | ⟨r', hmem, hrest⟩
  · exact .inl hc
  · rw [hT.inv.pending_completed hr, List.mem_append, List.mem_singleton] at hpending
    rcases hpending with hpending | hj
    · -- a chain that was in the ring before is another
      have hne : j 0 ≠ r.status := by
        rw [hstatus, ← hhead]
        intro he
        refine List.disjoint_of_nodup_append hT.inv.nodup ?_ (he ▸ hpending)
        exact List.mem_append_right _ (List.mem_map_of_mem hr)
      simp only [State.completed, update_of_ne hne] at hzero
      exact .inr (.inl ⟨hpending, hzero⟩)
    · have hsuccess : success = true := by
        rw [hj, hhead, ← hstatus] at hzero
        simp only [State.completed, update_self] at hzero
        simpa using hzero
      exact .inr (.inr ⟨r, hr, hj.symm, hmoved hsuccess⟩)
  · exact .inr (.inr ⟨r', List.mem_of_mem_eraseIdx hmem, hrest⟩)

theorem round (hr : Returns (exec .round) s e s') :
    TransferInv (⟨s, .round, e, s'⟩ :: l) s' ∧ SeparateStep l ⟨s, .round, e, s'⟩ := by
  have hI := hT.inv.round hr
  obtain ⟨-, hne, hzero, b, -, -, rfl⟩ := returns_virtioDiskIntrRound hr
  obtain ⟨p, f, idx, rest, hpending, hring, hpc, -, -, hrest⟩ := hT.inv.pending_pop hne
  have hpc' : ∀ q, ((s.processed b).procs q).pc = (s.procs q).pc := by
    intro q
    simp only [State.processed, wake]
    split <;> rfl
  have hdata : ((s.processed b).bufs transferBuffer).data = (s.bufs transferBuffer).data := by
    rcases eq_or_ne transferBuffer b with rfl | hb
    · simp [State.processed]
    · simp [State.processed, hb]
  refine ⟨hT.goes_on hI (fun _ => rfl) (fun _ => rfl) (fun q => by rw [hpc' q]) hdata ?_,
    separateStep_of_quiet rfl fun _ => rfl⟩
  rintro q ⟨g, j, hwait, -⟩
  rw [hpc' q] at hwait
  -- only the owner of the chain just processed is in a call
  obtain rfl : q = p :=
    hT.unique (f := g) (g := f) (by rw [hwait, Pc.frame]) (by rw [hpc, Pc.frame])
  refine ⟨f, idx, hpc, .inr (.inl ⟨?_, ?_⟩)⟩
  · rw [hpending]
    exact List.mem_cons_self
  · rwa [hring] at hzero

/-- The device moves the data of the call in progress. -/
theorem transfer (hr : Returns (exec (.transfer n)) s e s') :
    TransferInv (⟨s, .transfer n, e, s'⟩ :: l) s' ∧ SeparateStep l ⟨s, .transfer n, e, s'⟩ := by
  have hI := hT.inv.transfer hr
  obtain ⟨-, r, hget, -, hs'⟩ := returns_transfer hr
  obtain ⟨p, f, idx, hpc, -, -, hwrite, hsector, hbuf⟩ :=
    hT.inv.inflight r (List.mem_of_getElem? hget)
  have hprocs : s'.procs = s.procs := by rw [hs']; exact (s.move_frame r).2.1
  have hframe : (s.procs p).pc.frame = some f := by rw [hpc, Pc.frame]
  obtain ⟨c, since, hp, rfl⟩ := hT.exists_inProgress hframe
  obtain ⟨-, hb, hk⟩ := hT.busy p c since hp
  have hsec : r.sector = 2 * c.blockno := hsector.trans (sectorOf_eq hk)
  have hrb : r.buf = transferBuffer := hbuf.trans hb
  -- the effect of a write, and of a read
  have hput : ∀ x, c.data = some x → s'.bufs = s.bufs ∧
      Stores ⟨s, .transfer n, e, s'⟩ c.blockno x := by
    intro x hx
    have hw : r.write = true := by rw [hwrite, Rw.frame, hx]; rfl
    refine ⟨?_, ⟨n, rfl⟩, ?_⟩
    · rw [hs', State.moved, State.move, if_pos hw]
    · change s'.device.sectors = _
      rw [hs', State.moved, State.move, if_pos hw]
      change storeBlock s.device.sectors r.sector (s.bufs r.buf).data = _
      rw [hsec, hrb, hT.data p c since x hp hx]
  have hread : c.data = none → s'.device.sectors = s.device.sectors ∧
      (s'.bufs transferBuffer).data = s.block c.blockno := by
    intro hx
    have hw : ¬ r.write = true := by rw [hwrite, Rw.frame, hx]; simp
    refine ⟨?_, ?_⟩
    · rw [hs', State.moved, State.move, if_neg hw]
    · rw [hs', State.moved, State.move, if_neg hw, hrb]
      simp [hsec, State.block]
  have hcons : ∀ q c' since', inProgress (⟨s, .transfer n, e, s'⟩ :: l) q = some (c', since') →
      q = p ∧ c' = c ∧ since' = ⟨s, .transfer n, e, s'⟩ :: since := by
    intro q c' since' hq
    obtain ⟨since₁, hq₁, rfl⟩ := inProgress_cons rfl rfl hq
    obtain rfl := hT.unique (hT.busy q c' since₁ hq₁).1 hframe
    obtain ⟨rfl, rfl⟩ := Prod.mk.inj (Option.mem_unique hp hq₁)
    exact ⟨rfl, rfl, rfl⟩
  refine ⟨⟨hI, ?_, ?_, ?_, ?_⟩, ⟨?_, ?_, ?_⟩⟩
  · intro q hq
    rw [inProgress_goes_on rfl rfl, Option.map_eq_none_iff] at hq
    rw [hprocs]
    exact hT.idle q hq
  · intro q c' since' hq
    obtain ⟨rfl, rfl, -⟩ := hcons q c' since' hq
    rw [hprocs]
    exact hT.busy q c' since hp
  · intro q c' since' x hq hx
    obtain ⟨rfl, rfl, -⟩ := hcons q c' since' hq
    rw [(hput x hx).1]
    exact hT.data q c' since x hp hx
  · intro q c' since' hq _
    obtain ⟨rfl, rfl, rfl⟩ := hcons q c' since' hq
    refine ⟨fun x hx => ?_, fun hx => ?_⟩
    · exact ⟨_, List.mem_cons_self, (hput x hx).2⟩
    · exact ⟨_, List.mem_cons_self, (hread hx).2⟩
  · cases hx : c.data with
    | none => exact .inl (hread hx).1
    | some x => exact .inr ⟨p, c, since, x, hp, hx, (hput x hx).2⟩
  · intro q b h y c' since' x hcall
    cases hcall
  · intro q b h y c' since' hcall
    cases hcall

/-- **Every step keeps the invariant and mixes nothing up.** -/
theorem step (hblock : BlockStep a) (halone : Alone s a) (hr : Returns (exec a) s e s') :
    TransferInv (⟨s, a, e, s'⟩ :: l) s' ∧ SeparateStep l ⟨s, a, e, s'⟩ := by
  cases a with
  | call p c => exact hT.call hblock halone.1 halone.2 hr
  | run p =>
    cases e with
    | silent => exact hT.run hr
    | returned b h y => exact hT.returned hr
    | completed h b =>
      obtain ⟨he, -⟩ := hT.inv.pending_same hr (fun _ _ h => by cases h) nofun
      exact he.elim
    | processed h b =>
      obtain ⟨he, -⟩ := hT.inv.pending_same hr (fun _ _ h => by cases h) nofun
      exact he.elim
  | fetch => exact hT.fetch hr
  | transfer n => exact hT.transfer hr
  | complete n success => exact hT.complete hr
  | enter =>
    have hI := Inv.step (a := .enter) hT.inv trivial trivial hr
    obtain ⟨-, -, rfl⟩ := returns_virtioDiskIntrEnter hr
    exact ⟨hT.goes_on hI (fun _ => rfl) (fun _ => rfl) (fun _ => rfl) rfl fun _ h => h,
      separateStep_of_quiet rfl fun _ => rfl⟩
  | round => exact hT.round hr
  | leave =>
    have hI := Inv.step (a := .leave) hT.inv trivial trivial hr
    obtain ⟨-, -, -, rfl⟩ := returns_virtioDiskIntrLeave hr
    exact ⟨hT.goes_on hI (fun _ => rfl) (fun _ => rfl) (fun _ => rfl) rfl fun _ h => h,
      separateStep_of_quiet rfl fun _ => rfl⟩
  | kill p => exact hblock.elim

end

end TransferInv

/-! ### Runs -/

theorem State.Booted.transferInv (hs : s.Booted) : TransferInv [] s := by
  refine ⟨hs.inv, ?_, ?_, ?_, ?_⟩
  · intro p _
    rw [hs.procs p]
  · intro p c since hp
    cases hp
  · intro p c since x hp
    cases hp
  · intro p c since hp
    cases hp

/-- **Block transfers that are alone on their disk do not mix.** -/
theorem transfers_separate (hs : s₀.Booted)
    (hr : Run exec (fun s a => BlockStep a ∧ Alone s a) s₀ l s) : Separate l := by
  have hinv : TransferInv l s ∧ Separate l := by
    refine hr.inv (fun l s => TransferInv l s ∧ Separate l) ⟨hs.transferInv, trivial⟩ ?_
    rintro l s a e s' ⟨hT, hsep⟩ ⟨hblock, halone⟩ hret
    obtain ⟨hT', hstep⟩ := hT.step hblock halone hret
    exact ⟨hT', hstep, hsep⟩
  exact hinv.2

/-- A write of a block full of `v` to block `k`. -/
def writeCall (k v : ℕ) : Rw where
  b := transferBuffer
  blockno := k
  data := some (fun _ => Bits.ofNat 8 v, fun _ => Bits.ofNat 8 v)

/-- Process `1` writes to block `3`, and then process `2` reads it. -/
def writeThenRead : List Action :=
  [.call 1 (writeCall 3 7), .run 1, .fetch, .transfer 0, .complete 0 true, .enter, .round, .leave,
    .run 1, .call 2 (readCall 0 3), .run 2, .fetch, .transfer 0, .complete 0 true, .enter, .round,
    .leave, .run 2]

/-- Both calls return, and the data are those that were written. -/
theorem transfers_separate_call :
    Separate (Run.steps exec writeThenRead bootState).reverse ∧
      ((Run.steps exec writeThenRead bootState).map Record.reply)[8]? =
        some (.returned 0 0 (fun _ => Bits.ofNat 8 7, fun _ => Bits.ofNat 8 7)) ∧
      ((Run.steps exec writeThenRead bootState).map Record.reply)[17]? =
        some (.returned 0 0 (fun _ => Bits.ofNat 8 7, fun _ => Bits.ofNat 8 7)) := by
  have hallows : Reach.Allows exec (fun _ s a => BlockStep a ∧ Alone s a) [] writeThenRead
      bootState := by
    simp only [writeThenRead, Reach.Allows, BlockStep, Alone, and_true, true_and]
    refine ⟨⟨⟨rfl, fun _ => rfl, by decide⟩, rfl⟩, rfl, rfl, rfl, rfl, rfl, rfl, rfl, rfl,
      ⟨⟨rfl, ?_, by decide⟩, rfl⟩, rfl, rfl, rfl, rfl, rfl, rfl, rfl, rfl⟩
    -- process `1` has returned, and the others have not begun a call
    rintro (_ | _ | q)
    · rfl
    · rfl
    · rfl
  exact ⟨transfers_separate bootState_booted (Run.of_allows_start hallows), rfl, rfl⟩

/-- Two processes write to the same disk, and then the device moves the data of the first. -/
def twoWrites : List Action :=
  [.call 1 (writeCall 1 7), .run 1, .call 2 (writeCall 2 9), .run 2, .fetch, .transfer 0]

/-- **The second write overwrites the data of the first**: the device stores the data of process `2`
in the block that process `1` writes to. -/
theorem second_write_overwrites :
    ∃ l s, Run exec (fun _ a => BlockStep a) bootState l s ∧ ¬ Separate l := by
  have hallows : Reach.Allows exec (fun _ _ a => BlockStep a) [] twoWrites bootState := by
    simp only [twoWrites, Reach.Allows, BlockStep, and_true, true_and]
    exact ⟨⟨rfl, rfl⟩, rfl, ⟨rfl, rfl⟩, rfl, rfl, rfl⟩
  refine ⟨_, _, .of_allows_start hallows, ?_⟩
  rintro ⟨hstep, -⟩
  -- the first byte of sector 2, the first sector of block 1, and of sector 4
  rcases hstep.stored with hsame | ⟨p, c, since, x, hp, hx, -, hst⟩
  · have hbyte := congrFun (congrFun hsame 2) ⟨0, by decide⟩
    exact absurd hbyte (by decide +kernel)
  · have hc : c = writeCall 2 9 ∨ c = writeCall 1 7 := by
      have hfst := congrArg (Option.map Prod.fst) hp
      rcases eq_or_ne 2 p with rfl | hp₂
      · exact .inl (Option.some_inj.1 hfst).symm
      rcases eq_or_ne 1 p with rfl | hp₁
      · exact .inr (Option.some_inj.1 hfst).symm
      · simp [inProgress, begins, ends, hp₁, hp₂] at hfst
    rcases hc with rfl | rfl
    · obtain rfl := Option.some_inj.1 hx
      have hbyte := congrFun (congrFun hst 4) ⟨0, by decide⟩
      exact absurd hbyte (by decide +kernel)
    · obtain rfl := Option.some_inj.1 hx
      have hbyte := congrFun (congrFun hst 2) ⟨0, by decide⟩
      exact absurd hbyte (by decide +kernel)

end RaidSystem.Virtio
