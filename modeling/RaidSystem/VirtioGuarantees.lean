/-
**What the disk driver guarantees.**

The theorems about whole runs of the driver from `virtio_disk_init` on, of any length, so that the
16-bit indices of the rings wrap around.

With calls in progress on different buffers, a device that succeeds and no `kill`, the bookkeeping
is exact (`bookkeeping_exact`): the descriptors are free or in exactly one chain, no panic is
reached, and the completions are processed once each, in order, for the buffer they belong to.

A call of `virtio_disk_rw` waits with a single `sleep`, without testing `b->disk` afterwards, so it
trusts whoever wakes it.  As long as nobody but the interrupt handler does, it returns only when the
device is done with its request (`request_safe`).  But `kill` wakes any sleeping process
(`kill_frees_held_chain`).

* `Undisturbed` — the steps of runs without `kill` in which the device succeeds;
* `completions`, `processings` — what the device has reported and the handler has processed;
* `Bookkeeping`, `RequestSafe` — the two guarantees.
-/

import RaidSystem.VirtioSteps

set_option autoImplicit false

namespace RaidSystem.Virtio

open Prog Function

variable {s s' s₀ : State} {f : Frame} {idx : ℕ → ℕ} {p q i h n : ℕ} {e : Event} {a : Action}
  {l : List (Action × Event)}

/-! ### Completions -/

/-- The steps of runs without `kill` in which the device succeeds. -/
def Undisturbed (s : State) : Action → Prop
  | .kill _ => False
  | .complete _ success => success = true
  | a => DistinctBufs s a

theorem Undisturbed.distinctBufs (h : Undisturbed s a) : DistinctBufs s a := by
  cases a with
  | call p c => exact h
  | _ => trivial

theorem Undisturbed.sparesSleepers (h : Undisturbed s a) : SparesSleepers s a := by
  cases a with
  | kill p => exact h.elim
  | _ => trivial

/-- What the device has placed in the `used` ring, with the buffer of each request; oldest first. -/
def completions : List (Action × Event) → List (ℕ × ℕ)
  | [] => []
  | (_, .completed head b) :: l => completions l ++ [(head, b)]
  | (_, _) :: l => completions l

/-- What the interrupt handler has processed, with the buffer it has released; oldest first. -/
def processings : List (Action × Event) → List (ℕ × ℕ)
  | [] => []
  | (_, .processed head b) :: l => processings l ++ [(head, b)]
  | (_, _) :: l => processings l

/-- Steps that report and process nothing. -/
def Event.quiet : Event → Prop
  | .silent | .returned _ _ _ => True
  | _ => False

theorem completions_quiet (he : e.quiet) : completions ((a, e) :: l) = completions l := by
  cases e with
  | silent => rfl
  | returned b h y => rfl
  | _ => exact he.elim

theorem processings_quiet (he : e.quiet) : processings ((a, e) :: l) = processings l := by
  cases e with
  | silent => rfl
  | returned b h y => rfl
  | _ => exact he.elim

theorem pending_ne (hh : h ∈ s.pending) (hnot : i ∉ s.heads) : h ≠ i := by
  rintro rfl
  exact hnot (List.mem_append_right _ hh)

/-- An attempt to allocate descriptors leaves the `used` ring alone, and what is needed to process
its entries. -/
theorem Inv.alloc_pending (hI : Inv s) (hr : Returns (virtioDiskRwAlloc p f) s e s') :
    e.quiet ∧ s'.pending = s.pending ∧ ∀ h ∈ s.pending, s'.disk.info h = s.disk.info h := by
  obtain ⟨rfl, ⟨s₁, hback, rfl⟩ | ⟨s₁, idx, ht, rfl⟩⟩ := returns_virtioDiskRwAlloc hr
  · rw [hback.rest]
    exact ⟨trivial, rfl, fun _ _ => rfl⟩
  · have hfree := (ht.chain (show idx 0 ∈ [idx 0, idx 1, idx 2] by simp)).2
    rw [ht.rest]
    refine ⟨trivial, rfl, fun h hh => ?_⟩
    refine update_of_ne (pending_ne hh fun hmem => ?_) _ _
    obtain ⟨q, g, j, hq, he⟩ := hI.owner _ hmem
    exact hI.not_mem_of_free hfree q (he ▸ head_mem_chain hq)

/-- Every step but those that report or process leaves the `used` ring alone. -/
theorem Inv.pending_same (hI : Inv s) (hr : Returns (exec a) s e s')
    (hcomplete : ∀ n success, a ≠ .complete n success) (hround : a ≠ .round) :
    e.quiet ∧ s'.pending = s.pending ∧ ∀ h ∈ s.pending, s'.disk.info h = s.disk.info h := by
  cases a with
  | call p c =>
    obtain ⟨-, -, hr⟩ := returns_call hr
    have hfill : Inv { s with bufs := c.fill s.bufs } :=
      hI.congr_lock rfl rfl rfl (c.fill_disk s.bufs) fun _ _ => rfl
    exact hfill.alloc_pending hr
  | run p =>
    obtain ⟨hchan, ⟨f, hpc, -, hr⟩ | ⟨f, idx, hpc, hr⟩ | ⟨f, idx, hpc, hr⟩⟩ := returns_run hr
    · exact hI.alloc_pending hr
    · obtain ⟨rfl, rfl⟩ := returns_virtioDiskRwSubmit.1 hr
      exact ⟨trivial, rfl, fun _ _ => rfl⟩
    · obtain ⟨s₁, hfreed, hr₁⟩ := hI.virtioDiskRwFinish_returns hpc
      obtain ⟨rfl, rfl⟩ := hr.unique hr₁
      rw [hfreed.rest]
      refine ⟨trivial, rfl, fun h hh => update_of_ne (pending_ne hh ?_) _ _⟩
      rcases ((procInv_waiting hpc).1 (hI.proc p)).2.2 with ⟨hc, -⟩ | ⟨-, -, hnot⟩
      · rw [hchan] at hc
        cases hc
      · exact hnot
  | fetch =>
    obtain ⟨rfl, r, rest, -, -, -, rfl, -⟩ := hI.returns_fetch hr
    exact ⟨trivial, rfl, fun _ _ => rfl⟩
  | transfer n =>
    obtain ⟨rfl, r, -, -, rfl⟩ := returns_transfer hr
    have hdisk : (s.moved n r).disk = s.disk := (s.move_frame r).1
    refine ⟨trivial, ?_, fun h _ => by rw [hdisk]⟩
    rw [State.pending, hdisk, State.pending]
  | complete n success => exact absurd rfl (hcomplete n success)
  | enter =>
    obtain ⟨rfl, -, rfl⟩ := returns_virtioDiskIntrEnter hr
    exact ⟨trivial, rfl, fun _ _ => rfl⟩
  | round => exact absurd rfl hround
  | leave =>
    obtain ⟨rfl, -, -, rfl⟩ := returns_virtioDiskIntrLeave hr
    exact ⟨trivial, rfl, fun _ _ => rfl⟩
  | kill p =>
    simp only [exec, Virtio.kill, returns_bind, returns_modify, returns_pure] at hr
    obtain ⟨_, _, rfl, rfl, rfl⟩ := hr
    exact ⟨trivial, rfl, fun _ _ => rfl⟩

/-- What the handler has not processed yet: `w` is the rest of the completions, all successful. -/
structure Unprocessed (l : List (Action × Event)) (s : State) (w : List (ℕ × ℕ)) : Prop where
  completions : completions l = processings l ++ w
  pending : w.map Prod.fst = s.pending
  buf : ∀ x ∈ w, (s.disk.info x.1).b = some x.2
  status : ∀ x ∈ w, (s.disk.info x.1).status = 0

theorem Unprocessed.same {w : List (ℕ × ℕ)} (hw : Unprocessed l s w) (he : e.quiet)
    (hpending : s'.pending = s.pending) (hinfo : ∀ h ∈ s.pending, s'.disk.info h = s.disk.info h) :
    Unprocessed ((a, e) :: l) s' w := by
  have hmem : ∀ x ∈ w, x.1 ∈ s.pending := by
    intro x hx
    rw [← hw.pending]
    exact List.mem_map_of_mem hx
  constructor
  · rw [completions_quiet he, processings_quiet he, hw.completions]
  · rw [hw.pending, hpending]
  · intro x hx
    rw [hinfo _ (hmem x hx)]
    exact hw.buf x hx
  · intro x hx
    rw [hinfo _ (hmem x hx)]
    exact hw.status x hx

/-- A successful completion is one more to process. -/
theorem Unprocessed.complete {w : List (ℕ × ℕ)} (hw : Unprocessed l s w) (hI : Inv s)
    (hr : Returns (exec (.complete n true)) s e s') :
    ∃ w', Unprocessed ((.complete n true, e) :: l) s' w' := by
  obtain ⟨r, hget, -, rfl, rfl⟩ := returns_complete hr
  have hmem := List.mem_of_getElem? hget
  obtain ⟨p, f, idx, hpc, hhead, hstatus, -, -, hbuf⟩ := hI.inflight r hmem
  obtain ⟨-, hfmt, -⟩ := (procInv_waiting hpc).1 (hI.proc p)
  -- the chains that are already in the ring are others
  have hne : ∀ x ∈ w, x.1 ≠ r.head := by
    intro x hx he
    have hx' : x.1 ∈ s.pending := by
      rw [← hw.pending]
      exact List.mem_map_of_mem hx
    have hdisj := List.disjoint_of_nodup_append hI.nodup
    refine hdisj ?_ (he ▸ hx')
    exact List.mem_append_right _ (List.mem_map_of_mem hmem)
  refine ⟨w ++ [(r.head, r.buf)], ?_, ?_, ?_, ?_⟩
  · rw [Virtio.completions, Virtio.processings, hw.completions, List.append_assoc]
    exact fun _ _ h => by cases h
  · rw [List.map_append, hw.pending, hI.pending_completed hmem]
    rfl
  · intro x hx
    rcases List.mem_append.1 hx with hx | hx
    · have hx' : x.1 ≠ r.status := by
        rw [hstatus, ← hhead]
        exact hne x hx
      simp only [State.completed, update_of_ne hx']
      exact hw.buf x hx
    · obtain rfl := List.mem_singleton.1 hx
      simp only [State.completed, hstatus, hhead, update_self, hbuf]
      exact hfmt.buf
  · intro x hx
    rcases List.mem_append.1 hx with hx | hx
    · have hx' : x.1 ≠ r.status := by
        rw [hstatus, ← hhead]
        exact hne x hx
      simp only [State.completed, update_of_ne hx']
      exact hw.status x hx
    · obtain rfl := List.mem_singleton.1 hx
      simp [State.completed, hstatus, hhead]

/-- The handler processes the oldest completion, for its buffer. -/
theorem Unprocessed.round {w : List (ℕ × ℕ)} (hw : Unprocessed l s w) (hI : Inv s)
    (hr : Returns (exec .round) s e s') : ∃ w', Unprocessed ((.round, e) :: l) s' w' := by
  obtain ⟨-, hne, -, b, hb, rfl, rfl⟩ := returns_virtioDiskIntrRound hr
  obtain ⟨p, f, idx, rest, hpending, hring, -, -, hbuf, hrest⟩ := hI.pending_pop hne
  obtain rfl : f.b = b := by
    rw [hring, hbuf] at hb
    exact Option.some_inj.1 hb
  cases w with
  | nil =>
    have hnil := hw.pending
    rw [hpending] at hnil
    cases hnil
  | cons x w =>
    have hcons := hw.pending
    rw [hpending, List.map_cons, List.cons.injEq] at hcons
    have hx : x = (idx 0, f.b) := by
      have hxb := hw.buf x List.mem_cons_self
      rw [hcons.1, hbuf] at hxb
      exact Prod.ext hcons.1 (Option.some_inj.1 hxb).symm
    refine ⟨w, ?_, ?_, ?_, ?_⟩
    · rw [Virtio.completions, Virtio.processings, hw.completions, hring, hx]
      · simp
      · exact fun _ _ h => by cases h
    · rw [hcons.2, hrest f.b]
    · exact fun y hy => hw.buf y (List.mem_cons_of_mem _ hy)
    · exact fun y hy => hw.status y (List.mem_cons_of_mem _ hy)

/-- **What holds along an undisturbed run.** -/
theorem undisturbed_inv (hs : s₀.Booted) (hr : LogReach exec Undisturbed s₀ l s) :
    Inv s ∧ ∃ w, Unprocessed l s w := by
  refine hr.inv (fun l s => Inv s ∧ ∃ w, Unprocessed l s w) ⟨hs.inv, [], ?_⟩ ?_
  · refine ⟨rfl, ?_, by simp, by simp⟩
    rw [State.pending, hs.usedIdx, hs.used, Ring.contents_self (by decide)]
    rfl
  · rintro l s a e s' ⟨hI, w, hw⟩ hok hret
    refine ⟨hI.step hok.distinctBufs hok.sparesSleepers hret, ?_⟩
    cases a with
    | complete n success =>
      obtain rfl : success = true := hok
      exact hw.complete hI hret
    | round => exact hw.round hI hret
    | _ =>
      obtain ⟨he, hpending, hinfo⟩ := hI.pending_same hret (by simp) (by simp)
      exact ⟨w, hw.same he hpending hinfo⟩

/-! ### Panics -/

theorem virtioDiskRwAlloc_returns (s : State) (p : ℕ) (f : Frame) :
    ∃ e s', Returns (virtioDiskRwAlloc p f) s e s' := by
  rcases alloc3Desc_returns s with ⟨idx, s₁, halloc, -⟩ | ⟨s₁, halloc, -⟩
  · refine ⟨.silent, s₁.prepare p f idx, returns_bind.2 ⟨_, s₁, halloc, ?_⟩⟩
    simp [State.prepare]
  · refine ⟨.silent, s₁.sleep p (.asking f) .free, returns_bind.2 ⟨_, s₁, halloc, ?_⟩⟩
    simp [Virtio.sleep, State.sleep]

theorem not_fails_virtioDiskRwAlloc {x : Stop} : ¬ Fails (virtioDiskRwAlloc p f) s x := by
  obtain ⟨e, s', hr⟩ := virtioDiskRwAlloc_returns s p f
  exact hr.not_fails

/-- A process either cannot run or runs without a panic. -/
theorem Inv.fails_run (hI : Inv s) {x : Stop} (hf : Fails (Virtio.run p) s x) : x = .disabled := by
  rw [Virtio.run, get_returns.fails_bind_iff] at hf
  split at hf
  · exact absurd hf not_fails_virtioDiskRwAlloc
  · split at hf
    · exact absurd hf (returns_virtioDiskRwSubmit.2 ⟨rfl, rfl⟩).not_fails
    · exact fails_fail.1 hf
  · rename_i hpc _ _
    obtain ⟨s₁, -, hr⟩ := hI.virtioDiskRwFinish_returns hpc
    exact absurd hf hr.not_fails
  · exact fails_fail.1 hf

/-- **No step panics**, if the completions to be processed are successful. -/
theorem Inv.fails (hI : Inv s) (hstatus : ∀ h ∈ s.pending, (s.disk.info h).status = 0) {x : Stop}
    (hf : Fails (exec a) s x) : x = .disabled := by
  cases a with
  | call p c =>
    rw [exec, Virtio.call, get_returns.fails_bind_iff] at hf
    split at hf
    · rw [modify_returns.fails_bind_iff] at hf
      exact absurd hf not_fails_virtioDiskRwAlloc
    · exact fails_fail.1 hf
  | run p => exact hI.fails_run hf
  | fetch =>
    rw [exec, Virtio.fetch, get_returns.fails_bind_iff] at hf
    split at hf
    · exact fails_fail.1 hf
    · split at hf
      · exact fails_fail.1 hf
      · simp at hf
  | transfer n =>
    rw [exec, Virtio.transfer, get_returns.fails_bind_iff] at hf
    split at hf
    · exact fails_fail.1 hf
    · split at hf
      · exact fails_fail.1 hf
      · simp at hf
  | complete n success =>
    rw [exec, Virtio.complete, get_returns.fails_bind_iff] at hf
    split at hf
    · exact fails_fail.1 hf
    · split at hf
      · exact fails_fail.1 hf
      · simp at hf
  | enter =>
    rw [exec, virtioDiskIntrEnter, get_returns.fails_bind_iff] at hf
    split at hf
    · simp at hf
    · exact fails_fail.1 hf
  | round =>
    rw [exec, virtioDiskIntrRound, get_returns.fails_bind_iff] at hf
    split at hf
    case isTrue hround =>
      obtain ⟨p, f, idx, rest, hpending, hring, -, -, hbuf, -⟩ := hI.pending_pop hround.2
      have hzero := hstatus (idx 0) (by simp [hpending])
      simp [hring, hzero, hbuf, wakeup] at hf
    case isFalse => exact fails_fail.1 hf
  | leave =>
    rw [exec, virtioDiskIntrLeave, get_returns.fails_bind_iff] at hf
    split at hf
    · simp at hf
    · exact fails_fail.1 hf
  | kill p => simp [exec, Virtio.kill] at hf

/-! ### The bookkeeping -/

/-- The bookkeeping of the driver is exact, after a run with log `l`. -/
structure Bookkeeping (l : List (Action × Event)) (s : State) : Prop where
  /-- A descriptor is free, or in the chain of exactly one call. -/
  partition : ∀ i < num, (s.disk.free i = true ∧ ∀ p, i ∉ s.chain p) ∨
    (s.disk.free i = false ∧ ∃! p, i ∈ s.chain p)
  /-- The chain of a call: three descriptors, linked by `next`. -/
  chain : ∀ p, s.chain p ≠ [] → (s.chain p).length = 3 ∧ (s.chain p).Nodup ∧
    (∀ i ∈ s.chain p, i < num) ∧ Linked s.disk.desc (s.chain p)
  /-- When `alloc3_desc` fails. -/
  alloc : ∀ s', Returns alloc3Desc s none s' →
    (freeDescs s.disk.free).card < 3 ∧ s'.disk.free = s.disk.free
  /-- No step panics. -/
  panic : ∀ a x, Fails (exec a) s x → x = .disabled
  /-- The completions, in order, are those that have been processed, for the same buffer, and those
  that are in the `used` ring. -/
  once : ∃ w, completions l = processings l ++ w ∧ w.map Prod.fst = s.pending

theorem Inv.partition (hI : Inv s) (hi : i < num) : (s.disk.free i = true ∧ ∀ p, i ∉ s.chain p) ∨
    (s.disk.free i = false ∧ ∃! p, i ∈ s.chain p) := by
  cases hf : s.disk.free i with
  | true => exact .inl ⟨rfl, (hI.free_iff i hi).1 hf⟩
  | false =>
    have hnot : ¬ ∀ p, i ∉ s.chain p := by
      rw [← hI.free_iff i hi, hf]
      simp
    obtain ⟨p, hp⟩ := not_forall_not.1 hnot
    exact .inr ⟨rfl, p, hp, fun q hq => hI.disjoint q p i hq hp⟩

theorem Inv.chain (hI : Inv s) (hp : s.chain p ≠ []) : (s.chain p).length = 3 ∧
    (s.chain p).Nodup ∧ (∀ i ∈ s.chain p, i < num) ∧ Linked s.disk.desc (s.chain p) := by
  have hlt := hI.lt p
  have hproc := hI.proc p
  cases hpc : (s.procs p).pc with
  | idle => exact absurd (by rw [State.chain, hpc, Pc.chain]) hp
  | asking f => exact absurd (by rw [State.chain, hpc, Pc.chain]) hp
  | prepared f idx =>
    obtain ⟨-, -, hnodup, hfmt, -⟩ := (procInv_prepared hpc).1 hproc
    rw [chain_prepared hpc] at hlt ⊢
    exact ⟨rfl, hnodup, hlt, hfmt.linked⟩
  | waiting f idx =>
    obtain ⟨hnodup, hfmt, -⟩ := (procInv_waiting hpc).1 hproc
    rw [chain_waiting hpc] at hlt ⊢
    exact ⟨rfl, hnodup, hlt, hfmt.linked⟩

/-- `alloc3_desc` fails only if there are fewer than three free descriptors. -/
theorem alloc3Desc_none (hr : Returns alloc3Desc s none s') :
    (freeDescs s.disk.free).card < 3 ∧ s'.disk.free = s.disk.free := by
  rcases alloc3Desc_returns s with ⟨idx, s₁, halloc, -⟩ | ⟨s₁, halloc, hback, hcard⟩
  · cases (hr.unique halloc).1
  · obtain ⟨-, rfl⟩ := hr.unique halloc
    refine ⟨hcard, ?_⟩
    rw [hback.rest]

/-- **The bookkeeping of the driver is exact** in every state of an undisturbed run. -/
theorem bookkeeping_exact (hs : s₀.Booted) (hr : LogReach exec Undisturbed s₀ l s) :
    Bookkeeping l s := by
  obtain ⟨hI, w, hw⟩ := undisturbed_inv hs hr
  refine ⟨fun i hi => hI.partition hi, fun p hp => hI.chain hp, fun s' => alloc3Desc_none, ?_,
    w, hw.completions, hw.pending⟩
  intro a x hf
  refine hI.fails ?_ hf
  intro h hh
  rw [← hw.pending] at hh
  obtain ⟨y, hy, rfl⟩ := List.mem_map.1 hh
  exact hw.status y hy

/-- The driver after `virtio_disk_init`, with a disk full of zeros. -/
def bootState : State where
  disk := {
    desc := fun _ => { addr := .null, len := 0, flags := 0, next := 0 }
    avail := { idx := 0, ring := fun _ => 0 }
    used := { idx := 0, ring := fun _ => 0 }
    free := fun _ => true
    usedIdx := 0
    info := fun _ => { b := none, status := 0 }
    ops := fun _ => { type := 0, reserved := 0, sector := 0 } }
  device := { seen := 0, inflight := [], sectors := fun _ => 0 }
  bufs := fun _ => { disk := false, blockno := 0, data := 0 }
  procs := fun _ => { pc := .idle, chan := none }
  lock := none

theorem bootState_booted : bootState.Booted := by
  constructor <;> simp [bootState]

/-- A read of block `k` into buffer `b`. -/
def readCall (b k : ℕ) : Rw := { b := b, blockno := k, data := none }

theorem bookkeeping_exact_call : ∃ s, Returns (exec (.call 1 (readCall 0 5))) bootState .silent s ∧
    s.chain 1 = [0, 1, 2] ∧ Bookkeeping [(.call 1 (readCall 0 5), .silent)] s := by
  have hret : Returns (exec (.call 1 (readCall 0 5))) bootState .silent
      (exec (.call 1 (readCall 0 5)) bootState).state := ⟨rfl, rfl⟩
  have hok : Undisturbed bootState (.call 1 (readCall 0 5)) := fun q f hq => by cases hq
  exact ⟨_, hret, rfl, bookkeeping_exact bootState_booted (.next .start hok hret)⟩

/-! ### Requests and `kill` -/

/-- The driver lets go of a request only when the device has. -/
structure RequestSafe (s : State) : Prop where
  /-- A call that returns finds `b->disk` zero, and its chain is not with the device. -/
  returned : ∀ p b h y s', Returns (exec (.run p)) s (.returned b h y) s' →
    (s.bufs b).disk = false ∧ h ∉ s.held
  /-- The descriptors of a chain held by the device are in use, and hold the request of a process
  that waits for it. -/
  held : ∀ h ∈ s.held, ∃ p f idx, (s.procs p).pc = .waiting f idx ∧ idx 0 = h ∧
    Formatted s.disk f idx ∧ ∀ i ∈ s.chain p, s.disk.free i = false
  /-- A completed chain has its buffer. -/
  completed : ∀ h ∈ s.pending, (s.disk.info h).b ≠ none

theorem Inv.returned (hI : Inv s) {b : ℕ} {y : Block}
    (hr : Returns (exec (.run p)) s (.returned b h y) s') :
    (s.bufs b).disk = false ∧ h ∉ s.heads ∧ y = (s.bufs b).data := by
  obtain ⟨hchan, ⟨f, hpc, -, hr⟩ | ⟨f, idx, hpc, hr⟩ | ⟨f, idx, hpc, hr⟩⟩ := returns_run hr
  · cases (returns_virtioDiskRwAlloc hr).1
  · cases (returns_virtioDiskRwSubmit.1 hr).1
  · obtain ⟨s₁, -, hr₁⟩ := hI.virtioDiskRwFinish_returns hpc
    obtain ⟨he, -⟩ := hr.unique hr₁
    obtain ⟨rfl, rfl, rfl⟩ := Event.returned.inj he
    rcases ((procInv_waiting hpc).1 (hI.proc p)).2.2 with ⟨hc, -⟩ | ⟨-, hdisk, hnot⟩
    · rw [hchan] at hc
      cases hc
    · exact ⟨hdisk, hnot, rfl⟩

theorem Inv.requestSafe (hI : Inv s) : RequestSafe s := by
  refine ⟨?_, ?_, ?_⟩
  · intro p b h y s' hr
    obtain ⟨hdisk, hnot, -⟩ := hI.returned hr
    exact ⟨hdisk, fun hh => hnot (List.mem_append_left _ hh)⟩
  · intro h hh
    obtain ⟨p, f, idx, hpc, he, -, hfmt⟩ := hI.owner_asleep (List.mem_append_left _ hh)
    exact ⟨p, f, idx, hpc, he, hfmt, fun i hi => hI.used hi⟩
  · intro h hh
    obtain ⟨p, f, idx, -, rfl, -, hfmt⟩ := hI.owner_asleep (List.mem_append_right _ hh)
    rw [hfmt.buf]
    simp

/-- **A request is safe as long as no process is killed while it sleeps on its buffer.** -/
theorem request_safe {h : List Action} (hs : s₀.Booted)
    (hr : Reach exec (fun _ s a => DistinctBufs s a ∧ SparesSleepers s a) s₀ h s) :
    RequestSafe s := by
  refine Inv.requestSafe (hr.inv (fun _ s => Inv s) hs.inv ?_)
  intro h s a e s' hI hok hret
  exact hI.step hok.1 hok.2 hret

/-- Process `1` reads block `5`.  Process `2`, which does not sleep, is killed meanwhile, and so is
process `1` once it has been woken up. -/
def sparingRead : List Action :=
  [.call 1 (readCall 0 5), .run 1, .fetch, .transfer 0, .kill 2, .complete 0 true, .enter, .round,
    .kill 1, .leave, .run 1]

/-- Chain `0` is held by the device for four steps, and then in the `used` ring for two. -/
theorem request_safe_call :
    (∀ t ∈ Run.steps exec sparingRead bootState, RequestSafe t.before) ∧
      (Run.steps exec sparingRead bootState).map (fun t => (t.before.held, t.before.pending)) =
        [([], []), ([], []), ([0], []), ([0], []), ([0], []), ([0], []), ([], [0]), ([], [0]),
          ([], []), ([], []), ([], [])] ∧
      ((Run.steps exec sparingRead bootState).map Record.reply)[10]? = some (.returned 0 0 0) := by
  have hallows : Reach.Allows exec (fun _ s a => DistinctBufs s a ∧ SparesSleepers s a) []
      sparingRead bootState := by
    simp only [sparingRead, Reach.Allows, DistinctBufs, SparesSleepers, and_true, true_and]
    refine ⟨⟨fun q f hq => ?_, rfl⟩, rfl, rfl, rfl, ⟨fun b => ?_, rfl⟩, rfl, rfl, rfl,
      ⟨fun b => ?_, rfl⟩, rfl, rfl⟩
    · cases hq
    · change none ≠ some (Chan.buf b)
      exact nofun
    · change none ≠ some (Chan.buf b)
      exact nofun
  refine ⟨fun t ht => ?_, by decide +kernel, rfl⟩
  obtain ⟨h, hr⟩ := (Run.of_allows_start hallows).reach_before.2 t (List.mem_reverse.2 ht)
  exact request_safe bootState_booted hr

/-- The run in which a chain is freed while the device holds it: process `1` submits a read and is
killed. -/
def killedRead : List Action := [.call 1 (readCall 0 5), .run 1, .kill 1]

/-- **`kill` makes a call return before the device is done**: the call of process `1` returns with
`b->disk` still set and its chain still with the device. -/
theorem kill_frees_held_chain :
    ∃ s, Reach exec (fun _ s a => DistinctBufs s a) bootState killedRead.reverse s ∧
      ¬ RequestSafe s := by
  have hallows : Reach.Allows exec (fun _ s a => DistinctBufs s a) [] killedRead bootState := by
    simp only [killedRead, Reach.Allows, DistinctBufs, and_true, true_and]
    refine ⟨⟨fun q f hq => ?_, rfl⟩, rfl, rfl⟩
    cases hq
  refine ⟨_, .of_allows_start hallows, fun hsafe => ?_⟩
  have hdisk := (hsafe.returned 1 0 0 0 _ ⟨rfl, rfl⟩).1
  exact absurd hdisk (by decide +kernel)

end RaidSystem.Virtio
