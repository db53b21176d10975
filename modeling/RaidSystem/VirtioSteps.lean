/-
**Every step keeps the invariant of the driver.**

One lemma for each routine says what it makes of the state, and one that it keeps the invariant of
`RaidSystem/VirtioInvariant.lean`.  The steps of the device and of the interrupt handler move the
first descriptor of a chain from one place to the next; the steps of a process give it descriptors,
put the first of them into the `avail` ring, and give them back.

Main result: `Inv.step`.
-/

import RaidSystem.VirtioInvariant

set_option autoImplicit false

namespace RaidSystem.Virtio

open Prog Function

variable {s s' s₁ : State} {f : Frame} {idx : ℕ → ℕ} {p q i h n : ℕ} {e : Event} {r : Request}

/-! ### Processes that are not concerned -/

theorem Woken.pc {procs procs' : ℕ → Proc} (h : Woken procs procs') (p : ℕ) :
    (procs' p).pc = (procs p).pc := by
  rcases h p with h | ⟨-, h⟩
  · rw [h]
  · rw [h]

theorem Woken.chan {procs procs' : ℕ → Proc} (h : Woken procs procs') (p : ℕ) :
    (procs' p).chan = (procs p).chan ∨
      (procs p).chan = some .free ∧ (procs' p).chan = none := by
  rcases h p with h | ⟨hc, h⟩
  · exact .inl (by rw [h])
  · exact .inr ⟨hc, by rw [h]⟩

/-- A request still belongs to its process if that process still waits. -/
theorem Belongs.congr (hr : Belongs s r)
    (hpc : ∀ q f idx, (s.procs q).pc = .waiting f idx → r.head = idx 0 →
      (s'.procs q).pc = .waiting f idx) : Belongs s' r := by
  obtain ⟨q, f, idx, hq, hrest⟩ := hr
  exact ⟨q, f, idx, hpc q f idx hq hrest.1, hrest⟩

/-- The counters of the rings are 16-bit numbers. -/
def State.InRange (s : State) : Prop :=
  s.device.seen < idxSize ∧ s.disk.avail.idx < idxSize ∧ s.disk.usedIdx < idxSize ∧
    s.disk.used.idx < idxSize

theorem Inv.inRange (hI : Inv s) : s.InRange :=
  ⟨hI.seen_lt, hI.avail_lt, hI.usedIdx_lt, hI.used_lt⟩

/-- The invariant after a step that leaves the processes where they are. -/
theorem Inv.congr (hI : Inv s) (hpc : ∀ q, (s'.procs q).pc = (s.procs q).pc)
    (hfree : s'.disk.free = s.disk.free) (hrange : s'.InRange) (hnodup : s'.heads.Nodup)
    (hsub : s'.heads ⊆ s.heads) (hinflight : ∀ r ∈ s'.device.inflight, Belongs s r)
    (hproc : ∀ q, ProcInv s' q) : Inv s' := by
  have hchain : ∀ q, s'.chain q = s.chain q := fun q => by rw [State.chain, hpc q, State.chain]
  obtain ⟨hseen, havail, husedIdx, hused⟩ := hrange
  constructor
  · exact hseen
  · exact havail
  · exact husedIdx
  · exact hused
  · simp only [hchain]
    exact hI.lt
  · simp only [hchain, hfree]
    exact hI.free_iff
  · simp only [hchain]
    exact hI.disjoint
  · exact hproc
  · exact hnodup
  · simp only [hpc]
    exact fun h hh => hI.owner h (hsub hh)
  · simp only [hpc]
    exact hI.bufs
  · intro r hr
    refine (hinflight r hr).congr fun q f idx hq _ => ?_
    rw [hpc q, hq]

/-- The invariant after a step that concerns neither the rings nor the processes. -/
theorem Inv.congr_lock (hI : Inv s) (hdisk : s'.disk = s.disk) (hdevice : s'.device = s.device)
    (hprocs : s'.procs = s.procs) (hbufs : ∀ b, (s'.bufs b).disk = (s.bufs b).disk)
    (hlock : ∀ p, s.lock = some (.proc p) → s'.lock = s.lock) : Inv s' := by
  have hheads : s'.heads = s.heads := by
    simp only [State.heads, State.held, State.posted, State.pending, hdisk, hdevice]
  refine hI.congr (fun q => by rw [hprocs]) (by rw [hdisk]) ?_ ?_ ?_ ?_ ?_
  · rw [State.InRange, hdisk, hdevice]
    exact hI.inRange
  · rw [hheads]
    exact hI.nodup
  · rw [hheads]
    exact List.Subset.refl _
  · rw [hdevice]
    exact hI.inflight
  · intro q
    refine (hI.proc q).congr (by rw [hprocs]) (.inl (by rw [hprocs])) (hlock q) ?_
      (fun g _ => hbufs g.b) ?_
    · intro i _
      rw [hdisk]
      exact SameAt.refl _ i
    · intro i _
      rw [hheads]

/-! ### Allocation -/

theorem Taken.chain_nodup (ht : Taken s s₁ idx 3) : [idx 0, idx 1, idx 2].Nodup := by
  have h₀₁ : idx 0 ≠ idx 1 := fun h => by have := ht.inj 0 (by omega) 1 (by omega) h; omega
  have h₀₂ : idx 0 ≠ idx 2 := fun h => by have := ht.inj 0 (by omega) 2 (by omega) h; omega
  have h₁₂ : idx 1 ≠ idx 2 := fun h => by have := ht.inj 1 (by omega) 2 (by omega) h; omega
  simp [h₀₁, h₀₂, h₁₂]

theorem mem_chain_iff : i ∈ [idx 0, idx 1, idx 2] ↔ ∃ j < 3, idx j = i := by
  constructor
  · intro hi
    simp only [List.mem_cons, List.not_mem_nil, or_false] at hi
    rcases hi with rfl | rfl | rfl
    · exact ⟨0, by omega, rfl⟩
    · exact ⟨1, by omega, rfl⟩
    · exact ⟨2, by omega, rfl⟩
  · rintro ⟨j, hj, rfl⟩
    obtain rfl | rfl | rfl : j = 0 ∨ j = 1 ∨ j = 2 := by omega
    · simp
    · simp
    · simp

/-- Three descriptors are taken from the free ones. -/
theorem Taken.chain (ht : Taken s s₁ idx 3) (hi : i ∈ [idx 0, idx 1, idx 2]) :
    i < num ∧ s.disk.free i = true := by
  obtain ⟨j, hj, rfl⟩ := mem_chain_iff.1 hi
  exact ⟨ht.lt j hj, ht.wasFree j hj⟩

theorem Taken.free_iff (ht : Taken s s₁ idx 3) (i : ℕ) :
    s₁.disk.free i = true ↔ s.disk.free i = true ∧ i ∉ [idx 0, idx 1, idx 2] := by
  rw [ht.free i, Bool.and_eq_true, decide_eq_true_iff, mem_chain_iff]
  refine and_congr_right fun _ => ?_
  constructor
  · rintro hall ⟨j, hj, he⟩
    exact hall j hj he
  · intro hnone j hj he
    exact hnone ⟨j, hj, he⟩

/-- The state of a process that has got its descriptors. -/
def State.prepare (s : State) (p : ℕ) (f : Frame) (idx : ℕ → ℕ) : State :=
  { s with
    disk := s.disk.format f idx
    bufs := update s.bufs f.b { s.bufs f.b with disk := true }
    procs := update s.procs p { pc := .prepared f idx, chan := none }
    lock := some (.proc p) }

/-- The state of a process that has gone to sleep. -/
def State.sleep (s : State) (p : ℕ) (pc : Pc) (chan : Chan) : State :=
  { s with procs := update s.procs p { pc := pc, chan := some chan }, lock := none }

/-- **All that an attempt to allocate descriptors can do.** -/
theorem returns_virtioDiskRwAlloc (hr : Returns (virtioDiskRwAlloc p f) s e s') : e = .silent ∧
    ((∃ s₁, RolledBack s s₁ ∧ s' = s₁.sleep p (.asking f) .free) ∨
      ∃ s₁ idx, Taken s s₁ idx 3 ∧ s' = s₁.prepare p f idx) := by
  rw [virtioDiskRwAlloc] at hr
  rcases alloc3Desc_returns s with ⟨idx, s₁, halloc, ht⟩ | ⟨s₁, halloc, hback, -⟩
  · simp only [halloc.bind_iff, returns_bind, returns_modify, returns_pure] at hr
    obtain ⟨_, _, rfl, rfl, rfl⟩ := hr
    exact ⟨rfl, .inr ⟨s₁, idx, ht, rfl⟩⟩
  · simp only [halloc.bind_iff, Virtio.sleep, returns_bind, returns_modify, returns_pure] at hr
    obtain ⟨_, _, rfl, rfl, rfl⟩ := hr
    exact ⟨rfl, .inl ⟨s₁, hback, rfl⟩⟩

/-! ### Steps of a process -/

/-- The invariant after a step of process `p`: what has to be checked about its new descriptors and
about the places of the chains. -/
theorem Inv.update (hI : Inv s) (hpc : ∀ q ≠ p, (s'.procs q).pc = (s.procs q).pc)
    (hframe : ∀ f, (s'.procs p).pc.frame = some f →
      ∀ q g, q ≠ p → (s.procs q).pc.frame = some g → g.b ≠ f.b)
    (hlt : ∀ i ∈ s'.chain p, i < num)
    (hfree : ∀ i < num, s'.disk.free i = true ↔ i ∉ s'.chain p ∧ ∀ q ≠ p, i ∉ s.chain q)
    (hdisj : ∀ q ≠ p, ∀ i ∈ s'.chain p, i ∉ s.chain q) (hrange : s'.InRange)
    (hproc : ∀ q, ProcInv s' q) (hnodup : s'.heads.Nodup)
    (howner : ∀ h ∈ s'.heads, (∃ f idx, (s'.procs p).pc = .waiting f idx ∧ idx 0 = h) ∨
      h ∈ s.heads ∧ h ∉ s.chain p)
    (hinflight : ∀ r ∈ s'.device.inflight, r ∈ s.device.inflight ∧ r.head ∉ s.chain p) :
    Inv s' := by
  have hchain : ∀ q ≠ p, s'.chain q = s.chain q := fun q hq => by
    rw [State.chain, hpc q hq, State.chain]
  have hwait : ∀ q g j, (s.procs q).pc = .waiting g j → j 0 ∉ s.chain p →
      (s'.procs q).pc = .waiting g j := by
    intro q g j hq hnot
    have hne : q ≠ p := by
      rintro rfl
      exact hnot (head_mem_chain hq)
    rw [hpc q hne, hq]
  obtain ⟨hseen, havail, husedIdx, hused⟩ := hrange
  constructor
  · exact hseen
  · exact havail
  · exact husedIdx
  · exact hused
  · intro q i hi
    rcases eq_or_ne q p with rfl | hq
    · exact hlt i hi
    · rw [hchain q hq] at hi
      exact hI.lt q i hi
  · intro i hi
    rw [hfree i hi]
    constructor
    · rintro ⟨hself, hother⟩ q
      rcases eq_or_ne q p with rfl | hq
      · exact hself
      · rw [hchain q hq]
        exact hother q hq
    · intro hall
      refine ⟨hall p, fun q hq => ?_⟩
      rw [← hchain q hq]
      exact hall q
  · intro q q' i hi hi'
    rcases eq_or_ne q p with rfl | hq
    · rcases eq_or_ne q' q with rfl | hq'
      · rfl
      · rw [hchain q' hq'] at hi'
        exact absurd hi' (hdisj q' hq' i hi)
    · rw [hchain q hq] at hi
      rcases eq_or_ne q' p with rfl | hq'
      · exact absurd hi (hdisj q hq i hi')
      · rw [hchain q' hq'] at hi'
        exact hI.disjoint q q' i hi hi'
  · exact hproc
  · exact hnodup
  · intro h hh
    rcases howner h hh with ⟨f, idx, hpc', he⟩ | ⟨hh, hnot⟩
    · exact ⟨p, f, idx, hpc', he⟩
    · obtain ⟨q, g, j, hq, rfl⟩ := hI.owner h hh
      exact ⟨q, g, j, hwait q g j hq hnot, rfl⟩
  · intro q q' g g' hg hg' hb
    rcases eq_or_ne q p with rfl | hq
    · rcases eq_or_ne q' q with rfl | hq'
      · rfl
      · rw [hpc q' hq'] at hg'
        exact absurd hb.symm (hframe g hg q' g' hq' hg')
    · rw [hpc q hq] at hg
      rcases eq_or_ne q' p with rfl | hq'
      · exact absurd hb (hframe g' hg' q g hq hg)
      · rw [hpc q' hq'] at hg'
        exact hI.bufs q q' g g' hg hg' hb
  · intro r hr
    obtain ⟨hr, hnot⟩ := hinflight r hr
    refine (hI.inflight r hr).congr fun q g j hq he => hwait q g j hq ?_
    rwa [← he]

/-- The descriptors of a process are not free. -/
theorem Inv.used (hI : Inv s) (hi : i ∈ s.chain p) : s.disk.free i = false := by
  rw [← Bool.not_eq_true, hI.free_iff i (hI.lt p i hi)]
  exact fun hnone => hnone p hi

/-- A free descriptor belongs to no process. -/
theorem Inv.not_mem_of_free (hI : Inv s) (hf : s.disk.free i = true) (p : ℕ) : i ∉ s.chain p := by
  intro hi
  rw [hI.used hi] at hf
  cases hf

theorem Inv.free_iff_of_nil (hI : Inv s) (hchain : s.chain p = []) (hi : i < num) :
    s.disk.free i = true ↔ ∀ q ≠ p, i ∉ s.chain q := by
  rw [hI.free_iff i hi]
  constructor
  · exact fun hall q _ => hall q
  · intro hall q
    rcases eq_or_ne q p with rfl | hq
    · simp [hchain]
    · exact hall q hq

theorem head_mem_heads (hr : r ∈ s.device.inflight) : r.head ∈ s.heads := by
  simp only [State.heads, State.held, List.mem_append, List.mem_map]
  exact .inl (.inr ⟨r, hr, rfl⟩)

/-- A chain in one of the three places belongs to a process that waits. -/
theorem Inv.waiting_of_mem (hI : Inv s) (hh : h ∈ s.heads) (hmem : h ∈ s.chain p) :
    ∃ g j, (s.procs p).pc = .waiting g j ∧ j 0 = h := by
  obtain ⟨q, g, j, hq, rfl⟩ := hI.owner h hh
  obtain rfl := hI.disjoint q p _ (head_mem_chain hq) hmem
  exact ⟨g, j, hq, rfl⟩

section

variable (hI : Inv s) (hlock : s.lock = none) (hchain : s.chain p = [])
  (hbuf : ∀ q g, q ≠ p → (s.procs q).pc.frame = some g → g.b ≠ f.b)

include hI hlock hchain hbuf

/-- A call that finds too few descriptors goes to sleep. -/
theorem Inv.sleep_free (hback : RolledBack s s₁) : Inv (s₁.sleep p (.asking f) .free) := by
  obtain ⟨hrest, hdesc, hwoken⟩ := hback
  generalize s₁.disk.desc = desc at hrest hdesc
  generalize s₁.procs = procs at hrest hwoken
  subst hrest
  have hself : (State.sleep { s with disk := { s.disk with desc := desc }, procs := procs } p
      (.asking f) .free).procs p = { pc := .asking f, chan := some .free } :=
    update_self p _ _
  have hother : ∀ q ≠ p, (State.sleep { s with
      disk := { s.disk with desc := desc }, procs := procs } p (.asking f) .free).procs q =
      procs q :=
    fun q hq => update_of_ne hq _ _
  have hnil : State.chain (State.sleep { s with
      disk := { s.disk with desc := desc }, procs := procs } p (.asking f) .free) p = [] := by
    rw [State.chain, hself, Pc.chain]
  refine hI.update (p := p) ?_ ?_ ?_ ?_ ?_ hI.inRange ?_ hI.nodup ?_ ?_
  · intro q hq
    rw [hother q hq, hwoken.pc q]
  · intro g hg
    rw [hself] at hg
    cases hg
    exact hbuf
  · simp [hnil]
  · intro i hi
    rw [hnil]
    exact (hI.free_iff_of_nil hchain hi).trans (by simp)
  · simp [hnil]
  · intro q
    rcases eq_or_ne q p with rfl | hq
    · rw [procInv_asking (f := f) (by rw [hself]), hself]
      exact .inr rfl
    · refine (hI.proc q).congr ?_ ?_ ?_ ?_ (fun g _ => rfl) fun i _ => Iff.rfl
      · rw [hother q hq, hwoken.pc q]
      · rw [hother q hq]
        exact hwoken.chan q
      · intro hl
        rw [hlock] at hl
        cases hl
      · exact fun i hi => ⟨hdesc i (hI.used hi), rfl, rfl⟩
  · intro h hh
    exact .inr ⟨hh, by simp [hchain]⟩
  · intro r hr
    exact ⟨hr, by simp [hchain]⟩

/-- A call that finds three descriptors fills them. -/
theorem Inv.prepare (ht : Taken s s₁ idx 3) : Inv (s₁.prepare p f idx) := by
  have hnodup := ht.chain_nodup
  have hmem := fun {i} => ht.chain (i := i)
  have hfree := ht.free_iff
  have hrest := ht.rest
  generalize s₁.disk.free = free at hrest hfree
  subst hrest
  -- the new descriptors belong to no process so far
  have hnew : ∀ i ∈ [idx 0, idx 1, idx 2], ∀ q, i ∉ s.chain q := fun i hi q =>
    hI.not_mem_of_free (hmem hi).2 q
  generalize hs' : State.prepare { s with disk := { s.disk with free := free } } p f idx = s'
  have hself : s'.procs p = { pc := .prepared f idx, chan := none } := by
    rw [← hs']
    exact update_self p _ _
  have hother : ∀ q ≠ p, s'.procs q = s.procs q := fun q hq => by
    rw [← hs']
    exact update_of_ne hq _ _
  have hchain' : s'.chain p = [idx 0, idx 1, idx 2] := by rw [State.chain, hself, Pc.chain]
  have hheads : s'.heads = s.heads := by
    rw [← hs']
    rfl
  have hnot : idx 0 ∉ s.heads := by
    intro hh
    obtain ⟨q, g, j, hq, he⟩ := hI.owner _ hh
    exact hnew (idx 0) (by simp) q (he ▸ head_mem_chain hq)
  refine hI.update (p := p) (fun q hq => by rw [hother q hq]) ?_ ?_ ?_ ?_ ?_ ?_ ?_ ?_ ?_
  · intro g hg
    rw [hself] at hg
    cases hg
    exact hbuf
  · rw [hchain']
    exact fun i hi => (hmem hi).1
  · intro i hi
    have hfree' : s'.disk.free i = true ↔ s.disk.free i = true ∧ i ∉ [idx 0, idx 1, idx 2] := by
      rw [← hs']
      exact hfree i
    rw [hfree', hchain', hI.free_iff_of_nil hchain hi, and_comm]
  · rw [hchain']
    exact fun q _ i hi => hnew i hi q
  · rw [← hs']
    exact hI.inRange
  · intro q
    rcases eq_or_ne q p with rfl | hq
    · have hpc : (s'.procs q).pc = .prepared f idx := by rw [hself]
      rw [procInv_prepared hpc, hself, hheads]
      refine ⟨?_, rfl, hnodup, ?_, ?_, hnot⟩
      · rw [← hs']
        rfl
      · rw [← hs']
        exact formatted_format hnodup _ f
      · rw [← hs']
        simp [State.prepare]
    · refine (hI.proc q).congr (by rw [hother q hq]) (.inl (by rw [hother q hq])) ?_ ?_ ?_ ?_
      · intro hl
        rw [hlock] at hl
        cases hl
      · intro i hi
        rw [← hs']
        exact sameAt_format (fun hi' => hnew i hi' q hi) _ f
      · intro g hg
        rw [← hs']
        simp only [State.prepare]
        rw [update_of_ne (hbuf q g hq hg)]
      · intro i _
        rw [hheads]
  · rw [hheads]
    exact hI.nodup
  · intro h hh
    rw [hheads] at hh
    exact .inr ⟨hh, by simp [hchain]⟩
  · intro r hr
    rw [← hs'] at hr
    exact ⟨hr, by simp [hchain]⟩

theorem Inv.alloc (hr : Returns (virtioDiskRwAlloc p f) s e s') : Inv s' := by
  obtain ⟨-, ⟨s₁, hback, rfl⟩ | ⟨s₁, idx, ht, rfl⟩⟩ := returns_virtioDiskRwAlloc hr
  · exact hI.sleep_free hlock hchain hbuf hback
  · exact hI.prepare hlock hchain hbuf ht

end

/-! ### Submission -/

/-- The state of a process that has passed its request to the device. -/
def State.submit (s : State) (p : ℕ) (f : Frame) (idx : ℕ → ℕ) : State :=
  State.sleep { s with
    disk := { s.disk with
      avail := {
        idx := (s.disk.avail.idx + 1) % idxSize
        ring := update s.disk.avail.ring (s.disk.avail.idx % num) (idx 0) } } } p
    (.waiting f idx) (.buf f.b)

theorem returns_virtioDiskRwSubmit : Returns (virtioDiskRwSubmit p f idx) s e s' ↔
    e = .silent ∧ s' = s.submit p f idx := by
  simp only [virtioDiskRwSubmit, Virtio.sleep, returns_bind, returns_modify, returns_pure]
  constructor
  · rintro ⟨_, _, rfl, _, _, rfl, rfl, rfl⟩
    exact ⟨rfl, rfl⟩
  · rintro ⟨rfl, rfl⟩
    exact ⟨(), _, rfl, (), _, rfl, rfl, rfl⟩

theorem idxSize_facts : num ∣ idxSize ∧ num < idxSize := by decide

/-- The chain is now in the `avail` ring. -/
theorem Inv.posted_submit (hI : Inv s) (hlt : idx 0 < num) (hnot : idx 0 ∉ s.heads) :
    (s.submit p f idx).posted = s.posted ++ [idx 0] := by
  have hlen : s.posted.length < num := by
    have hall := hI.heads_length hlt hnot
    rw [State.heads, State.held, List.length_append, List.length_append] at hall
    omega
  exact Ring.contents_push idxSize_facts.1 idxSize_facts.2 hI.seen_lt hI.avail_lt hlen (idx 0)

theorem Inv.submit (hI : Inv s) (hpc : (s.procs p).pc = .prepared f idx) :
    Inv (s.submit p f idx) := by
  obtain ⟨hlock, -, hnodup, hfmt, hb, hnot⟩ := (procInv_prepared hpc).1 (hI.proc p)
  have hlt : ∀ i ∈ [idx 0, idx 1, idx 2], i < num := fun i hi =>
    hI.lt p i (by rwa [chain_prepared hpc])
  have hposted := hI.posted_submit (p := p) (f := f) (hlt (idx 0) (by simp)) hnot
  have hperm : (s.submit p f idx).heads.Perm (idx 0 :: s.heads) := by
    rw [State.heads, State.held, hposted, List.append_assoc, List.append_assoc]
    refine List.perm_middle.trans ?_
    rw [State.heads, State.held, List.append_assoc]
    exact List.Perm.refl _
  generalize hs' : s.submit p f idx = s' at hperm
  have hself : s'.procs p = { pc := .waiting f idx, chan := some (.buf f.b) } := by
    rw [← hs']
    exact update_self p _ _
  have hother : ∀ q ≠ p, s'.procs q = s.procs q := fun q hq => by
    rw [← hs']
    exact update_of_ne hq _ _
  have hchain : s'.chain p = s.chain p := by
    rw [State.chain, hself, Pc.chain, chain_prepared hpc]
  -- the head is in no chain but that of `p`
  have hheads : ∀ q ≠ p, ∀ i ∈ s.chain q, i ∈ s'.heads ↔ i ∈ s.heads := by
    intro q hq i hi
    rw [hperm.mem_iff, List.mem_cons]
    refine ⟨fun h => h.resolve_left ?_, .inr⟩
    rintro rfl
    exact hq (hI.disjoint q p _ hi (by simp [chain_prepared hpc]))
  -- so far no descriptor of `p` is in one of the three places
  have hfresh : ∀ h ∈ s.heads, h ∉ s.chain p := by
    intro h hh hmem
    obtain ⟨g, j, hq, -⟩ := hI.waiting_of_mem hh hmem
    rw [hpc] at hq
    cases hq
  refine hI.update (p := p) (fun q hq => by rw [hother q hq]) ?_ ?_ ?_ ?_ ?_ ?_ ?_ ?_ ?_
  · intro g hg q g' hq hg' hb'
    rw [hself] at hg
    cases hg
    exact hq (hI.bufs q p g' f hg' (by rw [hpc, Pc.frame]) hb')
  · rw [hchain]
    exact hI.lt p
  · intro i hi
    rw [hchain]
    have hfree : s'.disk.free i = s.disk.free i := by rw [← hs']; rfl
    rw [hfree, hI.free_iff i hi]
    exact ⟨fun hall => ⟨hall p, fun q _ => hall q⟩, fun hall q => by
      rcases eq_or_ne q p with rfl | hq
      · exact hall.1
      · exact hall.2 q hq⟩
  · rw [hchain]
    exact fun q hq i hi hi' => hq (hI.disjoint q p i hi' hi)
  · rw [← hs']
    exact ⟨hI.seen_lt, Nat.mod_lt _ (by decide), hI.usedIdx_lt, hI.used_lt⟩
  · intro q
    rcases eq_or_ne q p with rfl | hq
    · have hpc' : (s'.procs q).pc = .waiting f idx := by rw [hself]
      rw [procInv_waiting hpc', hself]
      refine ⟨hnodup, ?_, .inl ⟨rfl, ?_, hperm.mem_iff.2 List.mem_cons_self⟩⟩
      · rw [← hs']
        exact hfmt.congr fun i _ => ⟨rfl, rfl, rfl⟩
      · rw [← hs']
        exact hb
    · refine (hI.proc q).congr (by rw [hother q hq]) (.inl (by rw [hother q hq])) ?_ ?_ ?_
        (hheads q hq)
      · intro hl
        rw [hlock] at hl
        cases hl
        exact absurd rfl hq
      · intro i _
        rw [← hs']
        exact ⟨rfl, rfl, rfl⟩
      · intro g _
        rw [← hs']
        rfl
  · exact hperm.nodup_iff.2 (List.nodup_cons.2 ⟨hnot, hI.nodup⟩)
  · intro h hh
    rcases List.mem_cons.1 (hperm.mem_iff.1 hh) with rfl | hh
    · exact .inl ⟨f, idx, by rw [hself], rfl⟩
    · exact .inr ⟨hh, hfresh h hh⟩
  · intro r hr
    rw [← hs'] at hr
    exact ⟨hr, hfresh _ (head_mem_heads hr)⟩

/-! ### Return -/

/-- The entry of `info` of a call that is about to return. -/
def State.forget (s : State) (i : ℕ) : State :=
  { s with disk := { s.disk with
      info := update s.disk.info i { s.disk.info i with b := none } } }

/-- The state of a process whose call has returned. -/
def State.leave (s : State) (p : ℕ) : State :=
  { s with procs := update s.procs p { pc := .idle, chan := none } }

/-- **A call that has been woken up returns**: its chain is freed without a panic. -/
theorem Inv.virtioDiskRwFinish_returns (hI : Inv s) (hpc : (s.procs p).pc = .waiting f idx) :
    ∃ s₁, Freed (s.forget (idx 0)) s₁ [idx 0, idx 1, idx 2] ∧
      Returns (virtioDiskRwFinish p f idx) s (.returned f.b (idx 0) (s.bufs f.b).data)
        (s₁.leave p) := by
  obtain ⟨hnodup, hfmt, -⟩ := (procInv_waiting hpc).1 (hI.proc p)
  have hmem : ∀ i ∈ [idx 0, idx 1, idx 2], i ∈ s.chain p := fun i hi => by
    rwa [chain_waiting hpc]
  obtain ⟨s₁, hr, hs₁⟩ := freeChain_returns (s := s.forget (idx 0)) hfmt.linked hnodup
    (fun i hi => hI.lt p i (hmem i hi)) (fun i hi => hI.used (hmem i hi)) (show 2 ≤ num by decide)
  refine ⟨s₁, hs₁, ?_⟩
  have hdata : (s.bufs f.b).data = (s₁.bufs f.b).data := by
    rw [hs₁.rest]
    rfl
  refine returns_bind.2 ⟨(), s.forget (idx 0), returns_modify.2 rfl,
    returns_bind.2 ⟨(), s₁, hr, ?_⟩⟩
  rw [get_returns.bind_iff, modify_returns.bind_iff, hdata]
  exact returns_pure.2 ⟨rfl, rfl⟩

theorem Inv.finish (hI : Inv s) (hpc : (s.procs p).pc = .waiting f idx)
    (hchan : (s.procs p).chan = none) (hfreed : Freed (s.forget (idx 0)) s₁ [idx 0, idx 1, idx 2]) :
    Inv (s₁.leave p) := by
  obtain ⟨hnodup, hfmt, hcase⟩ := (procInv_waiting hpc).1 (hI.proc p)
  have hnot : idx 0 ∉ s.heads := by
    rcases hcase with ⟨hc, -⟩ | ⟨-, -, hnot⟩
    · rw [hchan] at hc
      cases hc
    · exact hnot
  obtain ⟨hrest, hfree, hdesc, hwoken⟩ := hfreed
  generalize s₁.disk.free = free at hrest hfree
  generalize s₁.disk.desc = desc at hrest hdesc
  generalize s₁.procs = procs at hrest hwoken
  generalize hs' : s₁.leave p = s'
  subst hrest
  have hself : s'.procs p = { pc := .idle, chan := none } := by
    rw [← hs']
    exact update_self p _ _
  have hother : ∀ q ≠ p, s'.procs q = procs q := fun q hq => by
    rw [← hs']
    exact update_of_ne hq _ _
  have hnil : s'.chain p = [] := by rw [State.chain, hself, Pc.chain]
  have hheads : s'.heads = s.heads := by
    rw [← hs']
    rfl
  -- the chain of `p` is in none of the three places
  have hgone : ∀ h ∈ s.heads, h ∉ s.chain p := by
    intro h hh hmem
    obtain ⟨g, j, hq, rfl⟩ := hI.waiting_of_mem hh hmem
    rw [hpc] at hq
    cases hq
    exact hnot hh
  have hapart : ∀ q ≠ p, ∀ i ∈ s.chain q, i ∉ [idx 0, idx 1, idx 2] := by
    intro q hq i hi hi'
    rw [← chain_waiting hpc] at hi'
    exact hq (hI.disjoint q p i hi hi')
  refine hI.update (p := p) ?_ ?_ ?_ ?_ ?_ ?_ ?_ ?_ ?_ ?_
  · intro q hq
    rw [hother q hq, hwoken.pc q]
    rfl
  · intro g hg
    rw [hself] at hg
    cases hg
  · simp [hnil]
  · intro i hi
    have hfree' : s'.disk.free i = (s.disk.free i || decide (i ∈ [idx 0, idx 1, idx 2])) := by
      rw [← hs']
      exact hfree i
    rw [hfree', hnil, Bool.or_eq_true, decide_eq_true_iff, hI.free_iff i hi]
    constructor
    · rintro (hall | hi')
      · exact ⟨by simp, fun q _ => hall q⟩
      · exact ⟨by simp, fun q hq hmem => hapart q hq i hmem hi'⟩
    · rintro ⟨-, hall⟩
      by_cases hi' : i ∈ [idx 0, idx 1, idx 2]
      · exact .inr hi'
      · refine .inl fun q => ?_
        rcases eq_or_ne q p with rfl | hq
        · rwa [chain_waiting hpc]
        · exact hall q hq
  · simp [hnil]
  · rw [← hs']
    exact hI.inRange
  · intro q
    rcases eq_or_ne q p with rfl | hq
    · rw [procInv_idle (by rw [hself]), hself]
    · refine (hI.proc q).congr ?_ ?_ ?_ ?_ ?_ ?_
      · rw [hother q hq, hwoken.pc q]
        rfl
      · rw [hother q hq]
        exact hwoken.chan q
      · intro _
        rw [← hs']
        rfl
      · intro i hi
        have hi' := hapart q hq i hi
        rw [← hs']
        refine ⟨hdesc i hi', rfl, ?_⟩
        have hne : i ≠ idx 0 := by
          rintro rfl
          exact hi' (by simp)
        simp [State.leave, State.forget, hne]
      · intro g _
        rw [← hs']
        rfl
      · intro i _
        rw [hheads]
  · rw [hheads]
    exact hI.nodup
  · intro h hh
    rw [hheads] at hh
    exact .inr ⟨hh, hgone h hh⟩
  · intro r hr
    rw [← hs'] at hr
    exact ⟨hr, hgone _ (head_mem_heads hr)⟩

/-! ### The steps of processes together -/

theorem returns_call {c : Rw} (hr : Returns (call p c) s e s') :
    s.lock = none ∧ (s.procs p).pc = .idle ∧
      Returns (virtioDiskRwAlloc p c.frame) { s with bufs := c.fill s.bufs } e s' := by
  rw [call, get_returns.bind_iff] at hr
  cases hlock : s.lock with
  | some x =>
    simp only [hlock] at hr
    exact absurd hr not_returns_fail
  | none =>
    cases hpc : (s.procs p).pc with
    | idle =>
      simp only [hlock, hpc, returns_bind, returns_modify] at hr
      obtain ⟨_, _, rfl, hr⟩ := hr
      exact ⟨rfl, rfl, hr⟩
    | _ =>
      simp only [hlock, hpc] at hr
      exact absurd hr not_returns_fail

/-- **The three places in which a process can go on.** -/
theorem returns_run (hr : Returns (run p) s e s') :
    (s.procs p).chan = none ∧
      ((∃ f, (s.procs p).pc = .asking f ∧ s.lock = none ∧
          Returns (virtioDiskRwAlloc p f) s e s') ∨
        (∃ f idx, (s.procs p).pc = .prepared f idx ∧ Returns (virtioDiskRwSubmit p f idx) s e s') ∨
        ∃ f idx, (s.procs p).pc = .waiting f idx ∧
          Returns (virtioDiskRwFinish p f idx) s e s') := by
  rw [run, get_returns.bind_iff] at hr
  split at hr
  · exact ⟨‹_›, .inl ⟨_, ‹_›, ‹_›, hr⟩⟩
  · rcases returns_ite.1 hr with ⟨-, hr⟩ | ⟨-, hr⟩
    · exact ⟨‹_›, .inr (.inl ⟨_, _, ‹_›, hr⟩)⟩
    · exact absurd hr not_returns_fail
  · exact ⟨‹_›, .inr (.inr ⟨_, _, ‹_›, hr⟩)⟩
  · exact absurd hr not_returns_fail

/-- The caller does not touch `b->disk`. -/
theorem Rw.fill_disk (c : Rw) (bufs : ℕ → Buf) (b : ℕ) :
    (c.fill bufs b).disk = (bufs b).disk := by
  rcases eq_or_ne b c.b with rfl | hb
  · simp [Rw.fill]
  · simp [Rw.fill, hb]

theorem Inv.call {c : Rw} (hI : Inv s) (hbuf : ∀ q f, (s.procs q).pc.frame = some f → f.b ≠ c.b)
    (hr : Returns (call p c) s e s') : Inv s' := by
  obtain ⟨hlock, hpc, hr⟩ := returns_call hr
  have hI₁ : Inv { s with bufs := c.fill s.bufs } :=
    hI.congr_lock rfl rfl rfl (c.fill_disk s.bufs) fun _ _ => rfl
  exact hI₁.alloc hlock (by simp [State.chain, hpc, Pc.chain]) (fun q g _ hg => hbuf q g hg) hr

theorem Inv.run (hI : Inv s) (hr : Returns (run p) s e s') : Inv s' := by
  obtain ⟨hchan, ⟨f, hpc, hlock, hr⟩ | ⟨f, idx, hpc, hr⟩ | ⟨f, idx, hpc, hr⟩⟩ := returns_run hr
  · refine hI.alloc hlock (by simp [State.chain, hpc, Pc.chain]) ?_ hr
    intro q g hq hg hb
    exact hq (hI.bufs q p g f hg (by rw [hpc, Pc.frame]) hb)
  · obtain ⟨-, rfl⟩ := returns_virtioDiskRwSubmit.1 hr
    exact hI.submit hpc
  · obtain ⟨s₁, hfreed, hr₁⟩ := hI.virtioDiskRwFinish_returns hpc
    rw [(hr.unique hr₁).2]
    exact hI.finish hpc hchan hfreed

/-- A process that does not sleep on its buffer may be killed. -/
theorem Inv.kill (hI : Inv s) (hkill : ∀ b, (s.procs p).chan ≠ some (.buf b)) :
    Inv { s with procs := Function.update s.procs p { s.procs p with chan := none } } := by
  have hpc : ∀ q, (Function.update s.procs p { s.procs p with chan := none } q).pc =
      (s.procs q).pc := by
    intro q
    rcases eq_or_ne q p with rfl | hq
    · rw [update_self]
    · rw [update_of_ne hq]
  have hchan : ∀ q, (Function.update s.procs p { s.procs p with chan := none } q).chan =
      (s.procs q).chan ∨ (s.procs q).chan = some .free ∧
        (Function.update s.procs p { s.procs p with chan := none } q).chan = none := by
    intro q
    rcases eq_or_ne q p with rfl | hq
    · rw [update_self]
      cases hc : (s.procs q).chan with
      | none => exact .inl rfl
      | some ch =>
        cases ch with
        | free => exact .inr ⟨rfl, rfl⟩
        | buf b => exact absurd hc (hkill b)
    · rw [update_of_ne hq]
      exact .inl rfl
  refine hI.congr hpc rfl hI.inRange hI.nodup
    (List.Subset.refl _) hI.inflight fun q => ?_
  exact (hI.proc q).congr (hpc q) (hchan q) (fun _ => rfl) (fun i _ => SameAt.refl _ i)
    (fun _ _ => rfl) fun _ _ => Iff.rfl

/-! ### Steps of the device -/

/-- The state after the device has taken the request `r`. -/
def State.fetched (s : State) (r : Request) : State :=
  { s with device := { s.device with
      seen := (s.device.seen + 1) % idxSize
      inflight := s.device.inflight ++ [r] } }

/-- **All that the device can take** is the request of a process. -/
theorem Inv.returns_fetch (hI : Inv s) (hr : Returns fetch s e s') : e = .silent ∧
    ∃ r rest, s.posted = r.head :: rest ∧ Belongs s r ∧ r.moved = false ∧ s' = s.fetched r ∧
      s'.posted = rest := by
  rw [fetch, get_returns.bind_iff] at hr
  rcases returns_ite.1 hr with ⟨-, hr⟩ | ⟨hne, hr⟩
  · exact absurd hr not_returns_fail
  have hpop : s.posted = _ := Ring.contents_pop hI.seen_lt hI.avail_lt hne
  obtain ⟨p, f, idx, hpc, he, -, hfmt⟩ := hI.owner_asleep
    (show s.disk.avail.ring (s.device.seen % num) ∈ s.heads by
      simp [State.heads, State.held, hpop])
  simp only [← he, hfmt.readChain, returns_bind, returns_modify, returns_pure] at hr
  obtain ⟨_, _, rfl, rfl, rfl⟩ := hr
  rw [← he] at hpop
  exact ⟨rfl, _, _, hpop, ⟨p, f, idx, hpc, rfl, rfl, rfl, rfl, rfl⟩, rfl, rfl, rfl⟩

theorem Inv.fetch (hI : Inv s) (hr : Returns fetch s e s') : Inv s' := by
  obtain ⟨-, r, rest, hposted, hbelongs, -, rfl, hrest⟩ := hI.returns_fetch hr
  have hperm : (s.fetched r).heads.Perm s.heads := by
    rw [State.heads, State.held, hrest, State.heads, State.held, hposted]
    simp only [State.fetched, List.map_append, List.map_cons, List.map_nil, List.append_assoc,
      List.cons_append]
    rw [← List.append_assoc]
    refine List.perm_middle.trans ?_
    rw [List.nil_append, List.append_assoc]
    exact List.Perm.refl _
  refine hI.congr (fun q => rfl) rfl
    ⟨Nat.mod_lt _ (by decide), hI.avail_lt, hI.usedIdx_lt, hI.used_lt⟩
    (hperm.nodup_iff.2 hI.nodup) hperm.subset ?_ ?_
  · intro r' hr'
    rcases List.mem_append.1 hr' with hr' | hr'
    · exact hI.inflight r' hr'
    · rw [List.mem_singleton.1 hr']
      exact hbelongs
  · intro q
    exact (hI.proc q).congr rfl (.inl rfl) (fun _ => rfl) (fun i _ => SameAt.refl _ i)
      (fun _ _ => rfl) fun i _ => hperm.mem_iff

/-- The state after the device has moved the data of request `r`, the `n`-th it holds. -/
def State.moved (s : State) (n : ℕ) (r : Request) : State :=
  { s.move r with device := { (s.move r).device with
      inflight := (s.move r).device.inflight.set n { r with moved := true } } }

/-- A step of the device on the `n`-th request that it holds. -/
theorem returns_request {b : Request → Bool} {x : Request → Driver Event}
    (hr : Returns (do
      let s ← get
      match s.device.inflight[n]? with
      | none => fail .disabled
      | some r => if b r then fail .disabled else x r) s e s') :
    ∃ r, s.device.inflight[n]? = some r ∧ b r = false ∧ Returns (x r) s e s' := by
  rw [get_returns.bind_iff] at hr
  cases hget : s.device.inflight[n]? with
  | none =>
    simp only [hget] at hr
    exact absurd hr not_returns_fail
  | some r =>
    simp only [hget] at hr
    rcases returns_ite.1 hr with ⟨-, hr⟩ | ⟨hb, hr⟩
    · exact absurd hr not_returns_fail
    · exact ⟨r, rfl, by simpa using hb, hr⟩

theorem returns_transfer (hr : Returns (transfer n) s e s') : e = .silent ∧
    ∃ r, s.device.inflight[n]? = some r ∧ r.moved = false ∧ s' = s.moved n r := by
  obtain ⟨r, hget, hmoved, hr⟩ := returns_request hr
  simp only [returns_bind, returns_modify, returns_pure] at hr
  obtain ⟨_, _, rfl, _, _, rfl, rfl, rfl⟩ := hr
  exact ⟨rfl, r, hget, hmoved, rfl⟩

theorem State.move_inflight (s : State) (r : Request) :
    (s.move r).device.inflight = s.device.inflight := by
  unfold State.move
  split <;> rfl

theorem State.move_frame (s : State) (r : Request) : (s.move r).disk = s.disk ∧
    (s.move r).procs = s.procs ∧ (s.move r).lock = s.lock ∧
    (s.move r).device.seen = s.device.seen ∧ ∀ b, ((s.move r).bufs b).disk = (s.bufs b).disk := by
  unfold State.move
  split
  · exact ⟨rfl, rfl, rfl, rfl, fun _ => rfl⟩
  · refine ⟨rfl, rfl, rfl, rfl, fun b => ?_⟩
    rcases eq_or_ne b r.buf with rfl | hb
    · simp
    · simp [hb]

theorem Inv.transfer (hI : Inv s) (hr : Returns (transfer n) s e s') : Inv s' := by
  obtain ⟨-, r, hget, -, hs'⟩ := returns_transfer hr
  obtain ⟨hdisk, hprocs, hlock, hseen, hbufs⟩ := s.move_frame r
  have hmem := List.mem_of_getElem? hget
  have hinflight : s'.device.inflight = s.device.inflight.set n { r with moved := true } := by
    rw [hs', State.moved, State.move_inflight]
  have hdisk' : s'.disk = s.disk := by rw [hs']; exact hdisk
  have hprocs' : s'.procs = s.procs := by rw [hs']; exact hprocs
  have hseen' : s'.device.seen = s.device.seen := by rw [hs']; exact hseen
  have hheads : s'.heads = s.heads := by
    have hmap : (s.device.inflight.set n { r with moved := true }).map Request.head =
        s.device.inflight.map Request.head := by
      have hhead : (s.device.inflight.map Request.head)[n]? = some r.head := by
        rw [List.getElem?_map, hget, Option.map_some]
      obtain ⟨hn, hval⟩ := List.getElem?_eq_some_iff.1 hhead
      rw [List.map_set, ← hval]
      exact List.set_getElem_self hn
    simp only [State.heads, State.held, State.posted, State.pending, hdisk', hseen', hinflight,
      hmap]
  refine hI.congr (fun q => by rw [hprocs']) (by rw [hdisk']) ?_ ?_ ?_ ?_ ?_
  · rw [State.InRange, hseen', hdisk']
    exact hI.inRange
  · rw [hheads]
    exact hI.nodup
  · rw [hheads]
    exact List.Subset.refl _
  · rw [hinflight]
    intro r' hr'
    rcases List.mem_or_eq_of_mem_set hr' with hr' | rfl
    · exact hI.inflight r' hr'
    · exact hI.inflight r hmem
  · intro q
    refine (hI.proc q).congr (by rw [hprocs']) (.inl (by rw [hprocs'])) ?_ ?_ ?_ ?_
    · intro _
      rw [hs']
      exact hlock
    · intro i _
      rw [hdisk']
      exact SameAt.refl _ i
    · intro g _
      rw [hs']
      exact hbufs g.b
    · intro i _
      rw [hheads]

/-- The state after the device has reported request `r`, the `n`-th it holds. -/
def State.completed (s : State) (n : ℕ) (r : Request) (success : Bool) : State :=
  { s with
    disk := { s.disk with
      info := update s.disk.info r.status
        { s.disk.info r.status with status := if success then 0 else 1 }
      used := {
        idx := (s.disk.used.idx + 1) % idxSize
        ring := update s.disk.used.ring (s.disk.used.idx % num) r.head } }
    device := { s.device with inflight := s.device.inflight.eraseIdx n } }

theorem returns_complete {success : Bool} (hr : Returns (complete n success) s e s') :
    ∃ r, s.device.inflight[n]? = some r ∧ (success = true → r.moved = true) ∧
      e = .completed r.head r.buf ∧ s' = s.completed n r success := by
  obtain ⟨r, hget, hmoved, hr⟩ := returns_request hr
  simp only [returns_bind, returns_modify, returns_pure] at hr
  obtain ⟨_, _, rfl, rfl, rfl⟩ := hr
  exact ⟨r, hget, by simpa using hmoved, rfl, rfl⟩

/-- The chain is now in the `used` ring. -/
theorem Inv.pending_completed (hI : Inv s) (hr : r ∈ s.device.inflight) (n : ℕ) (success : Bool) :
    (s.completed n r success).pending = s.pending ++ [r.head] := by
  have hlen : s.pending.length < num := by
    have hall := hI.heads_length_le
    have hpos := List.length_pos_of_mem hr
    rw [State.heads, State.held, List.length_append, List.length_append, List.length_map] at hall
    omega
  exact Ring.contents_push idxSize_facts.1 idxSize_facts.2 hI.usedIdx_lt hI.used_lt hlen r.head

theorem Inv.complete {success : Bool} (hI : Inv s) (hr : Returns (complete n success) s e s') :
    Inv s' := by
  obtain ⟨r, hget, -, -, rfl⟩ := returns_complete hr
  have hmem := List.mem_of_getElem? hget
  have hpending := hI.pending_completed hmem n success
  have herase : (r :: s.device.inflight.eraseIdx n).Perm s.device.inflight := by
    obtain ⟨hn, rfl⟩ := List.getElem?_eq_some_iff.1 hget
    exact List.getElem_cons_eraseIdx_perm hn
  have hperm : (s.completed n r success).heads.Perm s.heads := by
    rw [State.heads, State.held, hpending, State.heads, State.held, List.append_assoc,
      List.append_assoc]
    refine List.Perm.append_left s.posted ?_
    rw [← List.append_assoc]
    refine List.perm_append_comm.trans ?_
    exact List.Perm.append_right s.pending (herase.map Request.head)
  have hinfo : ∀ i, (((s.completed n r success).disk.info i).b) = (s.disk.info i).b := by
    intro i
    rcases eq_or_ne i r.status with rfl | hi
    · simp [State.completed]
    · simp [State.completed, hi]
  refine hI.congr (fun q => rfl) rfl
    ⟨hI.seen_lt, hI.avail_lt, hI.usedIdx_lt, Nat.mod_lt _ (by decide)⟩
    (hperm.nodup_iff.2 hI.nodup) hperm.subset ?_ ?_
  · intro r' hr'
    exact hI.inflight r' (List.mem_of_mem_eraseIdx hr')
  · intro q
    exact (hI.proc q).congr rfl (.inl rfl) (fun _ => rfl) (fun i _ => ⟨rfl, rfl, hinfo i⟩)
      (fun _ _ => rfl) fun i _ => hperm.mem_iff

/-! ### The interrupt handler -/

/-- The state after the handler has released buffer `b`. -/
def State.processed (s : State) (b : ℕ) : State :=
  { s with
    disk := { s.disk with usedIdx := (s.disk.usedIdx + 1) % idxSize }
    bufs := update s.bufs b { s.bufs b with disk := false }
    procs := wake s.procs (.buf b) }

theorem returns_virtioDiskIntrRound (hr : Returns virtioDiskIntrRound s e s') :
    s.lock = some .intr ∧ s.disk.usedIdx ≠ s.disk.used.idx ∧
      (s.disk.info (s.disk.used.ring (s.disk.usedIdx % num))).status = 0 ∧
      ∃ b, (s.disk.info (s.disk.used.ring (s.disk.usedIdx % num))).b = some b ∧
        e = .processed (s.disk.used.ring (s.disk.usedIdx % num)) b ∧ s' = s.processed b := by
  rw [virtioDiskIntrRound, get_returns.bind_iff] at hr
  rcases returns_ite.1 hr with ⟨⟨hlock, hne⟩, hr⟩ | ⟨-, hr⟩
  · rcases returns_ite.1 hr with ⟨-, hr⟩ | ⟨hstatus, hr⟩
    · exact absurd hr not_returns_fail
    · refine ⟨hlock, hne, by simpa using hstatus, ?_⟩
      cases hb : (s.disk.info (s.disk.used.ring (s.disk.usedIdx % num))).b with
      | none =>
        simp only [hb] at hr
        exact absurd hr not_returns_fail
      | some b =>
        simp only [hb, wakeup, returns_bind, returns_modify, returns_pure] at hr
        obtain ⟨_, _, rfl, _, _, rfl, _, _, rfl, rfl, rfl⟩ := hr
        exact ⟨b, rfl, rfl, rfl⟩
  · exact absurd hr not_returns_fail

/-- The next entry of the `used` ring is the chain of a process that sleeps on its buffer. -/
theorem Inv.pending_pop (hI : Inv s) (hne : s.disk.usedIdx ≠ s.disk.used.idx) :
    ∃ p f idx rest, s.pending = idx 0 :: rest ∧
      s.disk.used.ring (s.disk.usedIdx % num) = idx 0 ∧ (s.procs p).pc = .waiting f idx ∧
      (s.procs p).chan = some (.buf f.b) ∧ (s.disk.info (idx 0)).b = some f.b ∧
      ∀ b, (s.processed b).pending = rest := by
  have hpop : s.pending = _ := Ring.contents_pop hI.usedIdx_lt hI.used_lt hne
  obtain ⟨p, f, idx, hpc, he, hchan, hfmt⟩ := hI.owner_asleep
    (show s.disk.used.ring (s.disk.usedIdx % num) ∈ s.heads by simp [State.heads, hpop])
  rw [← he] at hpop
  exact ⟨p, f, idx, _, hpop, he.symm, hpc, hchan, hfmt.buf, fun _ => rfl⟩

/-- `wakeup` on a buffer wakes the process of the buffer, and no other. -/
theorem Inv.wake_of_ne (hI : Inv s) (hpc : (s.procs p).pc.frame = some f) (hq : q ≠ p) :
    wake s.procs (.buf f.b) q = s.procs q := by
  unfold wake
  refine if_neg fun hc => hq ?_
  have hproc := hI.proc q
  cases h : (s.procs q).pc with
  | idle =>
    rw [procInv_idle h, hc] at hproc
    cases hproc
  | asking g =>
    rw [procInv_asking h, hc] at hproc
    rcases hproc with h | h <;> cases h
  | prepared g j =>
    rw [procInv_prepared h, hc] at hproc
    cases hproc.2.1
  | waiting g j =>
    rw [procInv_waiting h, hc] at hproc
    rcases hproc.2.2 with ⟨hb, -⟩ | ⟨hb, -⟩
    · exact hI.bufs q p g f (by rw [h, Pc.frame]) hpc (Chan.buf.inj (Option.some_inj.1 hb)).symm
    · cases hb

theorem Inv.round (hI : Inv s) (hr : Returns virtioDiskIntrRound s e s') : Inv s' := by
  obtain ⟨hlock, hne, -, b, hb, -, rfl⟩ := returns_virtioDiskIntrRound hr
  obtain ⟨p, f, idx, rest, hpending, hring, hpc, hchan, hbuf, hrest⟩ := hI.pending_pop hne
  obtain rfl : f.b = b := by
    rw [hring, hbuf] at hb
    exact Option.some_inj.1 hb
  have hframe : (s.procs p).pc.frame = some f := by rw [hpc, Pc.frame]
  have hheads : s.heads.Perm (idx 0 :: (s.processed f.b).heads) := by
    rw [State.heads, hpending, State.heads, hrest f.b]
    exact List.perm_middle
  have hcons := hheads.nodup_iff.1 hI.nodup
  rw [List.nodup_cons] at hcons
  have hpc' : ∀ q, ((s.processed f.b).procs q).pc = (s.procs q).pc := by
    intro q
    simp only [State.processed, wake]
    split <;> rfl
  refine hI.congr hpc' rfl
    ⟨hI.seen_lt, hI.avail_lt, Nat.mod_lt _ (by decide), hI.used_lt⟩ hcons.2
    (fun h hh => hheads.mem_iff.2 (List.mem_cons_of_mem _ hh)) hI.inflight ?_
  intro q
  rcases eq_or_ne q p with rfl | hq
  · obtain ⟨hnodup, hfmt, -⟩ := (procInv_waiting hpc).1 (hI.proc q)
    rw [procInv_waiting ((hpc' q).trans hpc)]
    refine ⟨hnodup, hfmt.congr fun i _ => ⟨rfl, rfl, rfl⟩, .inr ⟨?_, ?_, hcons.1⟩⟩
    · simp [State.processed, wake, hchan]
    · simp [State.processed]
  · have hsame : (s.processed f.b).procs q = s.procs q := hI.wake_of_ne hframe hq
    refine (hI.proc q).congr (hpc' q) (.inl (by rw [hsame])) (fun _ => rfl)
      (fun i _ => ⟨rfl, rfl, rfl⟩) ?_ ?_
    · intro g hg
      have hne' : g.b ≠ f.b := fun h => hq (hI.bufs q p g f hg hframe h)
      simp [State.processed, hne']
    · intro i hi
      rw [hheads.mem_iff, List.mem_cons]
      refine ⟨.inr, fun h => h.resolve_left ?_⟩
      rintro rfl
      exact hq (hI.disjoint q p _ hi (head_mem_chain hpc))

theorem returns_virtioDiskIntrEnter (hr : Returns virtioDiskIntrEnter s e s') :
    e = .silent ∧ s.lock = none ∧ s' = { s with lock := some .intr } := by
  rw [virtioDiskIntrEnter, get_returns.bind_iff] at hr
  cases hlock : s.lock with
  | some x =>
    simp only [hlock] at hr
    exact absurd hr not_returns_fail
  | none =>
    simp only [hlock, returns_bind, returns_modify, returns_pure] at hr
    obtain ⟨_, _, rfl, rfl, rfl⟩ := hr
    exact ⟨rfl, rfl, rfl⟩

theorem returns_virtioDiskIntrLeave (hr : Returns virtioDiskIntrLeave s e s') :
    e = .silent ∧ s.lock = some .intr ∧ s.disk.usedIdx = s.disk.used.idx ∧
      s' = { s with lock := none } := by
  rw [virtioDiskIntrLeave, get_returns.bind_iff] at hr
  rcases returns_ite.1 hr with ⟨⟨hlock, heq⟩, hr⟩ | ⟨-, hr⟩
  · simp only [returns_bind, returns_modify, returns_pure] at hr
    obtain ⟨_, _, rfl, rfl, rfl⟩ := hr
    exact ⟨rfl, hlock, heq, rfl⟩
  · exact absurd hr not_returns_fail

/-- **Every step keeps the invariant**, if calls in progress use different buffers and no process is
killed while it sleeps on its buffer. -/
theorem Inv.step (hI : Inv s) {a : Action} (hbuf : DistinctBufs s a) (hkill : SparesSleepers s a)
    (hr : Returns (exec a) s e s') : Inv s' := by
  cases a with
  | call p c => exact hI.call hbuf hr
  | run p => exact hI.run hr
  | fetch => exact hI.fetch hr
  | transfer n => exact hI.transfer hr
  | complete n success => exact hI.complete hr
  | enter =>
    obtain ⟨-, hlock, rfl⟩ := returns_virtioDiskIntrEnter hr
    refine hI.congr_lock rfl rfl rfl (fun _ => rfl) fun p hp => ?_
    rw [hlock] at hp
    cases hp
  | round => exact hI.round hr
  | leave =>
    obtain ⟨-, hlock, -, rfl⟩ := returns_virtioDiskIntrLeave hr
    refine hI.congr_lock rfl rfl rfl (fun _ => rfl) fun p hp => ?_
    rw [hlock] at hp
    cases hp
  | kill p =>
    simp only [exec, Virtio.kill, returns_bind, returns_modify, returns_pure] at hr
    obtain ⟨_, _, rfl, -, rfl⟩ := hr
    exact hI.kill hkill

end RaidSystem.Virtio
