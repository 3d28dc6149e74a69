import OsbKernel.Proc.Preservation

/-!
# Exit and wait keep the invariant

`exit` with its reparenting, and `wait` with `freeproc`.  `freeproc` is right
only for a slot that is on `zombieList`; the lemmas say what it does there.
-/

namespace OsbKernel

open Function LinkedChain ExceptBind

variable {aff : Prop} {blncflg : Bool} {s s' : Kernel} {L L' : ListId → List Slot} {p : Slot}
  {q : Proc}

/-- What `reparent(p)` leaves alone. -/
structure Adopted (p : Slot) (s s' : Kernel) : Prop where
  cpuProc : s'.cpuProc = s.cpuProc
  initproc : s'.initproc = s.initproc
  awake : ∀ x, (s.proc x).state ≠ .SLEEPING →
    s'.proc x = (s.proc x).setParent (s'.proc x).parent
  asleep : ∀ x, (s'.proc x).state = .SLEEPING →
    s'.proc x = (s.proc x).setParent (s'.proc x).parent
  parent : ∀ x, (s'.proc x).parent = (s.proc x).parent ∨
    ((s.proc x).parent = some p ∧ (s'.proc x).parent = s.initproc)

theorem Adopted.refl (p : Slot) (s : Kernel) : Adopted p s s :=
  ⟨rfl, rfl, fun _ _ => rfl, fun _ _ => rfl, fun _ => .inl rfl⟩

theorem Adopted.woke {s'' : Kernel} (first : Adopted p s s') (second : Woke s' s'') :
    Adopted p s s'' where
  cpuProc := second.cpuProc.trans first.cpuProc
  initproc := second.initproc.trans first.initproc
  awake x up := by
    have one := first.awake x up
    have up' : (s'.proc x).state ≠ .SLEEPING := by
      rw [one]
      exact up
    rw [second.awake x up']
    exact one
  asleep x down := by
    have two := second.asleep x down
    rw [two] at down ⊢
    exact first.asleep x down
  parent x := by
    rw [second.parent x]
    exact first.parent x

theorem Adopted.adopt {pp : Slot} (first : Adopted p s s') (child : (s'.proc pp).parent = some p) :
    Adopted p s (s'.setProc pp ((s'.proc pp).setParent s.initproc)) where
  cpuProc := first.cpuProc
  initproc := first.initproc
  awake x up := by
    by_cases same : x = pp
    · subst same
      simp only [Kernel.setProc_proc, update_self]
      rw [first.awake x up]
      rfl
    · simpa [update_of_ne same] using first.awake x up
  asleep x down := by
    by_cases same : x = pp
    · subst same
      simp only [Kernel.setProc_proc, update_self, Proc.setParent_state] at down ⊢
      rw [first.asleep x down]
      rfl
    · simp only [Kernel.setProc_proc, update_of_ne same] at down ⊢
      exact first.asleep x down
  parent x := by
    by_cases same : x = pp
    · subst same
      simp only [Kernel.setProc_proc, update_self, Proc.setParent_parent]
      rcases first.parent x with old | ⟨old, new⟩
      · exact .inr ⟨old ▸ child, trivial⟩
      · exact .inr ⟨old, trivial⟩
    · simpa [update_of_ne same] using first.parent x

theorem Fits.setParent {q : Proc} {parent : Option Slot} (fits : Fits aff L p q)
    (child : q.parent ≠ none) : Fits aff L p (q.setParent parent) where
  placed := fits.placed
  range := fits.range
  affinity := fits.affinity
  clean free := absurd (fits.clean free).parent child
  closed := fits.closed
  ready := fits.ready

theorem reparentSlot_ok {pp : Slot} (inv : Inv aff s L)
    (home : aff → blncflg = false → (s.proc pp).parent = some p → ∀ x, x ≠ p →
      (s.proc x).state = .SLEEPING → (s.proc x).chan = Chan.ofProc s.initproc →
      (s.proc x).cpuNum = 0) :
    ∃ s', reparentSlot blncflg p s pp = .ok s' ∧ (∃ L', Inv aff s' L') ∧
      ∀ s₀, Adopted p s₀ s → Adopted p s₀ s' := by
  unfold reparentSlot
  by_cases child : (s.proc pp).parent = some p
  · rw [if_pos child]
    have adopted : Inv aff (s.setProc pp ((s.proc pp).setParent s.initproc)) L := by
      refine inv.edit (p := pp) (fun x apart => ?_) rfl ?_ ?_ rfl rfl
      · simp [update_of_ne apart]
      · simpa using (inv.slots pp).setParent (by rw [child]; simp)
      · simp
    have home' : aff → blncflg = false → ∀ x, (some p : Option Slot) ≠ some x →
        ((s.setProc pp ((s.proc pp).setParent s.initproc)).proc x).state = .SLEEPING →
        ((s.setProc pp ((s.proc pp).setParent s.initproc)).proc x).chan =
          Chan.ofProc s.initproc →
        ((s.setProc pp ((s.proc pp).setParent s.initproc)).proc x).cpuNum = 0 := by
      intro respected off x other asleep onChan
      have apart : x ≠ p := fun same => other (congrArg some same.symm)
      by_cases same : x = pp
      · subst same
        simp only [Kernel.setProc_proc, update_self, Proc.setParent_state, Proc.setParent_chan,
          Proc.setParent_cpuNum] at asleep onChan ⊢
        exact home respected off child x apart asleep onChan
      · simp only [Kernel.setProc_proc, update_of_ne same] at asleep onChan ⊢
        exact home respected off child x apart asleep onChan
    obtain ⟨s', ran, inv', woke⟩ := wakeup_ok adopted home'
    refine ⟨s', ran, inv', fun s₀ before => ?_⟩
    have step := before.adopt child
    rw [← before.initproc] at step
    exact step.woke woke
  · rw [if_neg child]
    exact ⟨s, rfl, ⟨L, inv⟩, fun _ before => before⟩

theorem reparent_ok (inv : Inv aff s L)
    (other : s.initproc ≠ some p)
    (home : aff → blncflg = false → (∃ pp, (s.proc pp).parent = some p) → ∀ x, x ≠ p →
      (s.proc x).state = .SLEEPING → (s.proc x).chan = Chan.ofProc s.initproc →
      (s.proc x).cpuNum = 0) :
    ∃ s', reparent blncflg s p = .ok s' ∧ (∃ L', Inv aff s' L') ∧ Adopted p s s' := by
  refine foldlM_ok (P := fun s' => (∃ L', Inv aff s' L') ∧ Adopted p s s')
    ⟨⟨L, inv⟩, Adopted.refl p s⟩ ?_
  rintro s₁ pp _ ⟨⟨L₁, inv₁⟩, adopted⟩
  have home₁ : aff → blncflg = false → (s₁.proc pp).parent = some p → ∀ x, x ≠ p →
      (s₁.proc x).state = .SLEEPING → (s₁.proc x).chan = Chan.ofProc s₁.initproc →
      (s₁.proc x).cpuNum = 0 := by
    intro respected off child x apart asleep onChan
    have born : (s.proc pp).parent = some p := by
      rcases adopted.parent pp with same | ⟨_, new⟩
      · rw [← same]
        exact child
      · rw [new] at child
        exact absurd child other
    have old := adopted.asleep x asleep
    rw [old] at asleep onChan ⊢
    rw [adopted.initproc] at onChan
    exact home respected off ⟨pp, born⟩ x apart asleep onChan
  obtain ⟨s₂, ran, inv₂, grow⟩ := reparentSlot_ok inv₁ home₁
  exact ⟨s₂, ran, inv₂, grow s adopted⟩

/-- The wakeups of an `exit` by `p` find only processes whose CPU is CPU 0. -/
def ExitWakesHome (s : Kernel) (p : Slot) : Prop :=
  ∀ x, x ≠ p → (s.proc x).state = .SLEEPING →
    ((s.proc x).chan = Chan.ofProc (s.proc p).parent ∨
      ((s.proc x).chan = Chan.ofProc s.initproc ∧ ∃ pp, (s.proc pp).parent = some p)) →
    (s.proc x).cpuNum = 0

def exited (q : Proc) (status : Int) : Proc :=
  ((q.setXstate status).setState .ZOMBIE).setContext .inExit

variable {c : Cpu} {addr : Nat}

theorem exitLeave_eq (status : Int) (reads : s.lists.Reads L) (off : ∀ l, p ∉ L l) :
    ∃ lists, lists.Reads (put L .zombieList p) ∧ (do
      let s := s.setProc p (((s.proc p).setXstate status).setState .ZOMBIE)
      let lists ← s.lists.addProcToList .zombieList p
      sched (s.setLists lists) c p .inExit) =
        .ok (((s.setProc p (exited (s.proc p) status)).setLists lists).setCpuProc c none) := by
  obtain ⟨lists, added, reads'⟩ := Lists.addProcToList_reads (l := .zombieList) reads off
  refine ⟨lists, reads', ?_⟩
  simp only [Kernel.setProc_lists, added, bind, Except.bind, sched, Kernel.setLists_proc,
    Kernel.setProc_proc, update_self, Proc.setState_state, reduceCtorEq, if_false]
  simp only [Kernel.setProc, Kernel.setLists, Kernel.setCpuProc, update_idem, exited]

theorem Inv.leaveAsZombie {lists : Lists} (inv : Inv aff s L) (status : Int)
    (runs : s.cpuProc c = some p) (closed : Closed (s.proc p))
    (reads : lists.Reads (put L .zombieList p)) :
    Inv aff (((s.setProc p (exited (s.proc p) status)).setLists lists).setCpuProc c none)
      (put L .zombieList p) := by
  have off := inv.off_of_running (inv.running runs)
  refine inv.leave (c := c) runs reads ?_ ?_ ?_ rfl rfl
  · intro x apart l
    exact mem_put_of_ne apart
  · intro x apart
    simp [update_of_ne apart]
  · refine ⟨?_, ?_, ?_, ?_, ?_, ?_⟩
    · simpa [Placed, exited] using mem_put_self ListId.zombieList p
    · simpa [exited] using (inv.slots p).range
    · intro _ c' listed
      rcases mem_put.mp listed with old | ⟨other, _⟩
      · exact absurd old (off _)
      · cases other
    · intro free
      simp [exited] at free
    · simpa [Closed, exited] using closed
    · intro ready
      simp [exited] at ready

theorem exit_ok {status : Int} (inv : Inv aff s L) (runs : s.cpuProc c = some p)
    (other : s.initproc ≠ some p)
    (home : aff → blncflg = false → ExitWakesHome s p) :
    ∃ s' L', exit blncflg s c p status = .ok s' ∧ Inv aff s' L' := by
  have state := inv.running runs
  have inv₁ : Inv aff (s.setProc p { s.proc p with ofile := fun _ => none, cwd := none }) L := by
    refine inv.edit (p := p) (fun x apart => ?_) rfl ?_ ?_ rfl rfl
    · simp [update_of_ne apart]
    · exact Fits.busy (inv.off_of_running state) (by simpa using (inv.slots p).range)
        (.inr (by simpa using state))
    · simp
  obtain ⟨s₁, shape⟩ : ∃ s₁, s₁ =
    s.setProc p { s.proc p with ofile := fun _ => none, cwd := none } := ⟨_, rfl⟩
  rw [← shape] at inv₁
  have same₁ : ∀ x, x ≠ p → s₁.proc x = s.proc x := by
    intro x apart
    simp [shape, update_of_ne apart]
  have parent₁ : ∀ x, (s₁.proc x).parent = (s.proc x).parent := by
    intro x
    by_cases same : x = p
    · subst same
      simp [shape]
    · rw [same₁ x same]
  have init₁ : s₁.initproc = s.initproc := by rw [shape]; rfl
  have runs₁ : s₁.cpuProc c = some p := by rw [shape]; exact runs
  have home₁ : aff → blncflg = false → ∀ x, x ≠ p → (s₁.proc x).state = .SLEEPING →
      ((s₁.proc x).chan = Chan.ofProc (s₁.proc p).parent ∨
        ((s₁.proc x).chan = Chan.ofProc s₁.initproc ∧ ∃ pp, (s₁.proc pp).parent = some p)) →
      (s₁.proc x).cpuNum = 0 := by
    intro respected flag x apart asleep onChan
    rw [same₁ x apart] at asleep onChan ⊢
    simp only [parent₁, init₁] at onChan
    exact home respected flag x apart asleep onChan
  obtain ⟨s₂, reparented, ⟨L₂, inv₂⟩, adopted⟩ := reparent_ok (p := p) inv₁
    (by rw [init₁]; exact other)
    (fun respected off child x apart asleep onChan =>
      home₁ respected off x apart asleep (.inr ⟨onChan, child⟩))
  have home₂ : aff → blncflg = false → ∀ x, (some p : Option Slot) ≠ some x →
      (s₂.proc x).state = .SLEEPING → (s₂.proc x).chan = Chan.ofProc (s₂.proc p).parent →
      (s₂.proc x).cpuNum = 0 := by
    intro respected flag x ne asleep onChan
    have apart : x ≠ p := fun same => ne (congrArg some same.symm)
    have old := adopted.asleep x asleep
    rw [old] at asleep onChan ⊢
    refine home₁ respected flag x apart asleep ?_
    rcases adopted.parent p with kept | ⟨self, given⟩
    · rw [kept] at onChan
      exact .inl onChan
    · rw [given] at onChan
      exact .inr ⟨onChan, p, self⟩
  obtain ⟨s₃, woken, ⟨L₃, inv₃⟩, woke⟩ := wakeup_ok inv₂ home₂
  have runs₃ : s₃.cpuProc c = some p := by
    rw [woke.cpuProc, adopted.cpuProc]
    exact runs₁
  have closed : Closed (s₃.proc p) := by
    have up₁ : (s₁.proc p).state ≠ .SLEEPING := by rw [inv₁.running runs₁]; decide
    have kept := adopted.awake p up₁
    have up₂ : (s₂.proc p).state ≠ .SLEEPING := by rw [kept]; exact up₁
    rw [woke.awake p up₂, kept]
    simp [Closed, shape]
  obtain ⟨lists, reads, left⟩ := exitLeave_eq (c := c) status inv₃.reads
    (inv₃.off_of_running (inv₃.running runs₃))
  refine ⟨_, _, ?_, inv₃.leaveAsZombie status runs₃ closed reads⟩
  unfold exit
  rw [if_neg (fun same => other same.symm)]
  simp only [← shape, reparented, woken, bind, Except.bind]
  exact left

theorem freeproc_eq {m : Kmem} (reads : s.lists.Reads L) (listed : p ∈ L .zombieList)
    (freed : freePages (s.proc p) s.kmem = .ok m) :
    ∃ lists, lists.Reads (put (drop L .zombieList p) .unusedList p) ∧
      freeproc s p = .ok (((s.setProc p (s.proc p).reset).setLists lists).setKmem m) := by
  obtain ⟨lists, removed, reads'⟩ := Lists.removeProcFromList_reads reads listed
  obtain ⟨lists', added, reads''⟩ := Lists.addProcToList_reads (l := .unusedList) reads'
    (Family.notMem_drop reads listed)
  refine ⟨lists', reads'', ?_⟩
  simp only [freeproc, freed, removed, added, bind, Except.bind, pure, Except.pure]

theorem Inv.reap {lists : Lists} {m : Kmem} (inv : Inv aff s L)
    (state : (s.proc p).state = .ZOMBIE)
    (reads : lists.Reads (put (drop L .zombieList p) .unusedList p)) :
    Inv aff (((s.setProc p (s.proc p).reset).setLists lists).setKmem m)
      (put (drop L .zombieList p) .unusedList p) := by
  refine inv.moveIdle (p := p) reads ?_ ?_ ?_ inv.counters rfl (by rw [state]; decide)
  · intro x apart l
    rw [mem_put_of_ne apart, mem_drop_of_ne apart]
  · intro x apart
    simp [update_of_ne apart]
  · simp only [Kernel.setKmem_proc, Kernel.setLists_proc, Kernel.setProc_proc, update_self]
    refine ⟨mem_put_self _ _, (inv.slots p).range, ?_, fun _ => ⟨rfl, rfl, rfl, rfl, rfl, rfl⟩,
      fun _ => (inv.slots p).closed (.inr state), ?_⟩
    · intro _ c listed
      rcases mem_put.mp listed with old | ⟨other, _⟩
      · exact absurd old (Family.notMem_drop inv.reads (inv.listed_zombie state) _)
      · cases other
    · rintro (h | h) <;> cases h

/-- The outcome of an operation on a kernel: a state with the invariant, or a
stop for another reason than a list function. -/
def Sound {α : Type} (aff : Prop) (kernel : α → Kernel) : Except Fault α → Prop
  | .ok a => ∃ L, Inv aff (kernel a) L
  | .error f => ¬ f.OfLists

theorem Sound.bind {α β : Type} {kernel : α → Kernel} {kernel' : β → Kernel} {x : Except Fault α}
    {f : α → Except Fault β} (first : Sound aff kernel x)
    (second : ∀ a L, x = .ok a → Inv aff (kernel a) L → Sound aff kernel' (f a)) :
    Sound aff kernel' (x >>= f) := by
  cases x with
  | error e => exact first
  | ok a =>
    obtain ⟨L, inv⟩ := first
    exact second a L rfl inv

theorem procFreepagetable_stopsIn (pt : PageTable) (m : Kmem) (sz : Nat) :
    StopsIn (fun f => ¬ f.OfLists) (procFreepagetable pt m sz) := by
  refine (uvmunmap_stopsIn _ _ _ _ _).bind fun _ => ?_
  exact (uvmunmap_stopsIn _ _ _ _ _).bind fun _ => uvmfree_stopsIn _ _ _

theorem freePages_stopsIn (q : Proc) (m : Kmem) :
    StopsIn (fun f => ¬ f.OfLists) (freePages q m) := by
  unfold freePages
  cases q.pagetable with
  | none => exact StopsIn.ok _
  | some pt => exact procFreepagetable_stopsIn _ _ _

theorem freeproc_sound (inv : Inv aff s L) (state : (s.proc p).state = .ZOMBIE) :
    Sound aff id (freeproc s p) := by
  cases freed : freePages (s.proc p) s.kmem with
  | error f =>
    have stopped : freeproc s p = .error f := by
      simp only [freeproc, freed, bind, Except.bind]
    rw [stopped]
    exact freePages_stopsIn _ _ f freed
  | ok m =>
    obtain ⟨lists, reads, ran⟩ := freeproc_eq inv.reads (inv.listed_zombie state) freed
    rw [ran]
    exact ⟨_, inv.reap state reads⟩

theorem Inv.editRunning (inv : Inv aff s L) (state : (s.proc p).state = .RUNNING)
    (state' : q.state = .RUNNING) (range : 0 ≤ q.cpuNum ∧ q.cpuNum < NCPU) :
    Inv aff (s.setProc p q) L := by
  refine inv.edit (p := p) (fun x apart => ?_) rfl ?_ ?_ rfl rfl
  · simp [update_of_ne apart]
  · exact Fits.busy (inv.off_of_running state) (by simpa using range) (.inr (by simpa using state'))
  · simp [state, state']

theorem waitReap_sound {np : Slot} (inv : Inv aff s L)
    (state : (s.proc p).state = .RUNNING) (dead : (s.proc np).state = .ZOMBIE) :
    Sound aff Prod.fst (waitReap s p np addr) := by
  unfold waitReap
  split
  · exact (freeproc_sound inv dead).bind fun s' L' _ inv' => ⟨L', inv'⟩
  · cases (s.proc p).pagetable with
    | none => exact fun listed => listed.elim
    | some pt =>
      have apart : np ≠ p := by
        rintro rfl
        rw [dead] at state
        cases state
      dsimp only
      generalize copyout pt addr (intBytes (s.proc np).xstate) = outcome
      obtain ⟨copied, pt'⟩ := outcome
      have inv' : Inv aff (s.setProc p ((s.proc p).setPagetable (some pt'))) L :=
        inv.editRunning state (by simpa using state) (by simpa using (inv.slots p).range)
      split
      · exact ⟨L, inv'⟩
      · refine (freeproc_sound inv' ?_).bind fun s'' L'' _ inv'' => ⟨L'', inv''⟩
        simpa [update_of_ne apart] using dead

theorem waitReap_ne_nothing {np : Slot} (s' : Kernel) (kids : Bool) :
    waitReap s p np addr ≠ .ok (s', .nothing kids) := by
  intro found
  unfold waitReap at found
  split at found
  · obtain ⟨s'', _, result⟩ := bind_ok found
    cases result
  · cases pt : (s.proc p).pagetable with
    | none =>
      rw [pt] at found
      cases found
    | some pt' =>
      rw [pt] at found
      dsimp only at found
      split at found
      · cases found
      · obtain ⟨s'', _, result⟩ := bind_ok found
        cases result

theorem waitScan_sound (addr : Nat) (inv : Inv aff s L) (state : (s.proc p).state = .RUNNING)
    (slots : List Slot) (havekids : Bool) :
    Sound aff Prod.fst (waitScan p addr slots havekids s) ∧
      ∀ s' kids, waitScan p addr slots havekids s = .ok (s', .nothing kids) → s' = s := by
  induction slots generalizing havekids with
  | nil =>
    refine ⟨⟨L, inv⟩, fun s' kids found => ?_⟩
    simp only [waitScan, Except.ok.injEq, Prod.mk.injEq] at found
    exact found.1.symm
  | cons np rest ih =>
    unfold waitScan
    split
    · split
      · rename_i dead
        refine ⟨waitReap_sound inv state dead, fun s' kids found => ?_⟩
        exact absurd found (waitReap_ne_nothing s' kids)
      · exact ih true
    · exact ih havekids

theorem wait_sound (inv : Inv aff s L) (runs : s.cpuProc c = some p) :
    Sound aff Prod.fst (wait s c p addr) := by
  obtain ⟨scanned, untouched⟩ :=
    waitScan_sound addr inv (inv.running runs) (List.finRange NPROC) false
  refine scanned.bind fun r L' ran inv' => ?_
  obtain ⟨s', found⟩ := r
  cases found with
  | reaped pid | copyoutFailed => exact ⟨L', inv'⟩
  | nothing havekids =>
    have same := untouched s' havekids ran
    subst same
    dsimp only
    split
    · exact ⟨L', inv'⟩
    · obtain ⟨s'', L'', slept, inv''⟩ := sleep_ok (.proc p) inv' runs
      rw [slept]
      exact ⟨L'', inv''⟩

end OsbKernel
