import OsbKernel.Proc.Lifecycle

/-!
# Process creation keeps the invariant

`allocproc` and `fork`, with the allocations they make spelled out: what they
do when every allocation succeeds, and that a `fork` whose allocations do not
fail raises no fault of the list functions.
-/

namespace OsbKernel

open Function LinkedChain ExceptBind

variable {aff : Prop} {blncflg : Bool} {s s' : Kernel} {L L' : ListId → List Slot} {p np : Slot}

/-- The trapframe page and the page table that `allocproc` obtains. -/
def Allocates (m : Kmem) (page : Page) (pt : PageTable) (m' : Kmem) : Prop :=
  ∃ m₁, kalloc m = some (page, m₁) ∧ procPagetable page m₁ = .ok (some pt, m')

/-- The slot that `allocproc` hands out. -/
def allocated (q : Proc) (pid : Int) (page : Page) (pt : PageTable) : Proc :=
  { q with
    pid := pid
    state := .USED
    trapframe := some (page, Trapframe.junk)
    pagetable := some pt
    context := .forkret }

variable {page : Page} {m m₁ : Kmem}

theorem allocproc_ok {pt : PageTable} (reads : s.lists.Reads L)
    (head : s.lists.first .unusedList = some np) (allocates : Allocates s.kmem page pt m) :
    ∃ lists, lists.Reads (drop L .unusedList np) ∧
      allocproc s = .ok ((((s.setProc np (allocated (s.proc np) s.nextpid page pt)).setLists
        lists).setNextpid (intSucc s.nextpid)).setKmem m, some np) := by
  obtain ⟨lists, removed, reads'⟩ :=
    Lists.removeProcFromList_reads reads (Family.mem_of_first reads head)
  obtain ⟨m₁, first, second⟩ := allocates
  refine ⟨lists, reads', ?_⟩
  simp only [allocproc, head, takeUnused, removed, bind, Except.bind, pure, Except.pure,
    Kernel.setNextpid_kmem, Kernel.setLists_kmem, Kernel.setProc_kmem, first, second,
    Kernel.setKmem_kmem]
  simp [Kernel.setProc, Kernel.setKmem, Kernel.setLists, Kernel.setNextpid, allocated,
    Proc.setPid, Proc.setState, Proc.setTrapframe, Proc.setPagetable, Proc.setContext]

/-- The trapframe page and the copied address space that `fork` obtains. -/
def ForkAllocates (s : Kernel) (p : Slot) (page : Page) (new : PageTable) (m : Kmem) : Prop :=
  ∃ old pt m₁, (s.proc p).pagetable = some old ∧ Allocates s.kmem page pt m₁ ∧
    uvmcopy old pt m₁ (s.proc p).sz = .ok (true, new, m)

/-- The new process, from its parent and from what the free slot contained. -/
def forkChild (blncflg : Bool) (p : Slot) (parent free : Proc) (pid : Int) (page : Page)
    (new : PageTable) : Proc :=
  (((forkFields parent (allocated free pid page new)).setParent (some p)).setState
    .RUNNABLE).setCpuNum (if blncflg then 0 else free.cpuNum)

/-- The state after a `fork` that has put its child on a list. -/
def forked (s : Kernel) (np : Slot) (child : Proc) (procCount : Cpu → Nat) (lists : Lists)
    (m : Kmem) : Kernel :=
  ((((s.setProc np child).setProcCount procCount).setLists lists).setNextpid
    (intSucc s.nextpid)).setKmem m

theorem Inv.ne_first (inv : Inv aff s L) (state : (s.proc p).state = .RUNNING)
    (head : s.lists.first .unusedList = some np) : p ≠ np := by
  rintro rfl
  exact inv.off_of_running state _ (Family.mem_of_first inv.reads head)

theorem fork_ok (blncflg : Bool) {new : PageTable} {home : Cpu} (inv : Inv aff s L)
    (state : (s.proc p).state = .RUNNING) (head : s.lists.first .unusedList = some np)
    (allocates : ForkAllocates s p page new m) (own : (s.proc p).cpuNum = home) :
    ∃ lists procCount,
      lists.Reads (put (drop L .unusedList np) (.runnable (if blncflg then 0 else home)) np) ∧
      (∃ n, procCount = onFirstCpu n) ∧
      fork blncflg s p = .ok (forked s np
        (forkChild blncflg p (s.proc p) (s.proc np) s.nextpid page new) procCount lists m,
        s.nextpid) := by
  obtain ⟨old, pt, m₁, table, found, copied⟩ := allocates
  obtain ⟨lists, reads, taken⟩ := allocproc_ok inv.reads head found
  have apart := inv.ne_first state head
  obtain ⟨lists', procCount, reads', counters, put⟩ := forkEnqueue_ok blncflg (p := p)
    (s := ((((s.setProc np ((forkFields (s.proc p)
      (allocated (s.proc np) s.nextpid page new)).setParent (some p))).setLists
        lists).setNextpid (intSucc s.nextpid)).setKmem m)) (c := home) reads
    (Family.notMem_drop inv.reads (Family.mem_of_first inv.reads head)) inv.counters apart
    (by simpa [update_of_ne apart] using own)
  refine ⟨lists', procCount, reads', counters, ?_⟩
  simp only [fork, taken, bind, Except.bind, Kernel.setKmem_proc, Kernel.setNextpid_proc,
    Kernel.setLists_proc, Kernel.setProc_proc, update_self, update_of_ne apart, table,
    allocated, Kernel.setKmem_kmem, copied, Bool.true_eq_false, if_false]
  simp only [Kernel.setProc, Kernel.setKmem, Kernel.setLists, Kernel.setNextpid,
    Kernel.setProcCount, update_idem, update_self, allocated,
    Proc.setPagetable, forkFields] at put ⊢
  rw [put]
  rfl

theorem fork_inv {new : PageTable} (inv : Inv aff s L)
    (state : (s.proc p).state = .RUNNING) (head : s.lists.first .unusedList = some np)
    (allocates : ForkAllocates s p page new m)
    (home : aff → blncflg = false → (s.proc np).cpuNum = (s.proc p).cpuNum) :
    ∃ s' L', fork blncflg s p = .ok (s', s.nextpid) ∧ Inv aff s' L' := by
  obtain ⟨c, _, own⟩ := cpuAt_of_range (inv.slots p).range.1 (inv.slots p).range.2
  have listed := Family.mem_of_first inv.reads head
  have free := Family.notMem_drop inv.reads listed
  have idle : (s.proc np).state = .UNUSED := inv.state_of_listed listed
  obtain ⟨lists, procCount, reads, counters, ran⟩ :=
    fork_ok blncflg inv state head allocates own.symm
  refine ⟨_, put (drop L .unusedList np) (.runnable (if blncflg then 0 else c)) np, ran, ?_⟩
  refine inv.moveIdle (p := np) reads ?_ ?_ ?_ counters rfl (by rw [idle]; decide)
  · intro x apart l
    rw [mem_put_of_ne apart, mem_drop_of_ne apart]
  · intro x apart
    simp [forked, update_of_ne apart]
  · have child : (forked s np (forkChild blncflg p (s.proc p) (s.proc np) s.nextpid page new)
        procCount lists m).proc np =
        forkChild blncflg p (s.proc p) (s.proc np) s.nextpid page new := by
      simp [forked]
    rw [child]
    refine Fits.enqueued free rfl (by simp [forkChild, forkFields, allocated]) ?_ ?_
    · cases blncflg with
      | true => exact zero_range
      | false => exact (inv.slots np).range
    · intro respected
      cases blncflg with
      | true => rfl
      | false =>
        rw [if_neg Bool.false_ne_true, own]
        exact home respected rfl

/-- One of the allocations of a `fork` by `p` returns the null pointer. -/
def AllocationFails (s : Kernel) (p : Slot) : Prop :=
  kalloc s.kmem = none ∨
  (∃ page m₁ m₂, kalloc s.kmem = some (page, m₁) ∧ procPagetable page m₁ = .ok (none, m₂)) ∨
  ∃ page pt m₁ old new m, Allocates s.kmem page pt m₁ ∧ (s.proc p).pagetable = some old ∧
    uvmcopy old pt m₁ (s.proc p).sz = .ok (false, new, m)

theorem freeproc_unlisted (reads : s.lists.Reads L) (off : p ∉ L .zombieList) :
    ∃ f, freeproc s p = .error f := by
  cases freed : freePages (s.proc p) s.kmem with
  | error f => exact ⟨f, by simp only [freeproc, freed, bind, Except.bind]⟩
  | ok m =>
    refine ⟨if L .zombieList = [] then .panic "Trying to remove from an empty list"
      else .slotIndex, ?_⟩
    simp only [freeproc, freed, Lists.removeProcFromList_notMem reads off, bind, Except.bind]

/-- The state in which `allocproc` fills the slot it has taken. -/
def taken (s : Kernel) (np : Slot) (q : Proc) (lists : Lists) (m : Kmem) : Kernel :=
  (((s.setProc np q).setLists lists).setNextpid (intSucc s.nextpid)).setKmem m

theorem freeproc_taken {lists : Lists} {q : Proc} (inv : Inv aff s L)
    (head : s.lists.first .unusedList = some np) (reads : lists.Reads (drop L .unusedList np)) :
    ∃ f, freeproc (taken s np q lists m) np = .error f :=
  freeproc_unlisted (s := taken s np q lists m) reads
    (Family.notMem_drop inv.reads (Family.mem_of_first inv.reads head) .zombieList)

theorem allocproc_noTrapframe (inv : Inv aff s L) (head : s.lists.first .unusedList = some np)
    (fails : kalloc s.kmem = none) : ∃ f, allocproc s = .error f := by
  obtain ⟨lists, removed, reads⟩ :=
    Lists.removeProcFromList_reads inv.reads (Family.mem_of_first inv.reads head)
  obtain ⟨f, stopped⟩ := freeproc_taken (m := s.kmem)
    (q := (((s.proc np).setPid s.nextpid).setState .USED).setTrapframe none) inv head reads
  refine ⟨f, ?_⟩
  simp only [allocproc, head, takeUnused, removed, bind, Except.bind, pure, Except.pure,
    Kernel.setNextpid_kmem, Kernel.setLists_kmem, Kernel.setProc_kmem, fails]
  simp only [taken, Kernel.setProc, Kernel.setLists, Kernel.setNextpid, Kernel.setKmem,
    update_idem, update_self] at stopped ⊢
  rw [stopped]

theorem allocproc_noPagetable {m₂ : Kmem} (inv : Inv aff s L)
    (head : s.lists.first .unusedList = some np) (found : kalloc s.kmem = some (page, m₁))
    (fails : procPagetable page m₁ = .ok (none, m₂)) : ∃ f, allocproc s = .error f := by
  obtain ⟨lists, removed, reads⟩ :=
    Lists.removeProcFromList_reads inv.reads (Family.mem_of_first inv.reads head)
  obtain ⟨f, stopped⟩ := freeproc_taken (m := m₂) (q := ((((s.proc np).setPid
    s.nextpid).setState .USED).setTrapframe (some (page, Trapframe.junk))).setPagetable none)
    inv head reads
  refine ⟨f, ?_⟩
  simp only [allocproc, head, takeUnused, removed, bind, Except.bind, pure, Except.pure,
    Kernel.setNextpid_kmem, Kernel.setLists_kmem, Kernel.setProc_kmem, found,
    Kernel.setKmem_kmem, fails]
  simp only [taken, Kernel.setProc, Kernel.setLists, Kernel.setNextpid, Kernel.setKmem,
    update_idem, update_self] at stopped ⊢
  rw [stopped]

/-- After a failed allocation `fork` does not return: the slot it wants to give
back is on no list. -/
theorem fork_fails (blncflg : Bool) (inv : Inv aff s L) (state : (s.proc p).state = .RUNNING)
    (head : s.lists.first .unusedList = some np) (fails : AllocationFails s p) :
    ∃ f, fork blncflg s p = .error f := by
  have early : (∃ f, allocproc s = .error f) → ∃ f, fork blncflg s p = .error f := by
    rintro ⟨f, stopped⟩
    exact ⟨f, by simp only [fork, stopped, bind, Except.bind]⟩
  rcases fails with none | ⟨page, m₁, m₂, found, none⟩ | ⟨page, pt, m₁, old, new, m, found, late⟩
  · exact early (allocproc_noTrapframe inv head none)
  · exact early (allocproc_noPagetable inv head found none)
  · obtain ⟨table, copied⟩ := late
    have apart := inv.ne_first state head
    obtain ⟨lists, reads, taken⟩ := allocproc_ok inv.reads head found
    obtain ⟨f, stopped⟩ := freeproc_taken (m := m)
      (q := allocated (s.proc np) s.nextpid page new) inv head reads
    refine ⟨f, ?_⟩
    simp only [fork, taken, bind, Except.bind, Kernel.setKmem_proc, Kernel.setNextpid_proc,
      Kernel.setLists_proc, Kernel.setProc_proc, update_self, update_of_ne apart, table,
      allocated, Kernel.setKmem_kmem, copied, if_true]
    simp only [OsbKernel.taken, Kernel.setProc, Kernel.setLists, Kernel.setNextpid,
      Kernel.setKmem, update_idem, allocated, Proc.setPagetable] at stopped ⊢
    rw [stopped]

theorem procPagetable_stopsIn (page : Page) (m : Kmem) :
    StopsIn (fun f => ¬ f.OfLists) (procPagetable page m) := by
  unfold procPagetable
  split
  · exact StopsIn.ok _
  · refine (mappages_stopsIn _ _ _ _).bind fun r => ?_
    dsimp only
    split
    · exact (uvmfree_stopsIn _ _ _).bind fun _ => StopsIn.ok _
    · refine (mappages_stopsIn _ _ _ _).bind fun r' => ?_
      split
      · refine (uvmunmap_stopsIn _ _ _ _ _).bind fun _ => ?_
        exact (uvmfree_stopsIn _ _ _).bind fun _ => StopsIn.ok _
      · exact StopsIn.ok _

theorem allocproc_stops {f : Fault} (inv : Inv aff s L)
    (head : s.lists.first .unusedList = some np) (found : kalloc s.kmem = some (page, m₁))
    (stops : procPagetable page m₁ = .error f) : allocproc s = .error f := by
  obtain ⟨lists, removed, reads⟩ :=
    Lists.removeProcFromList_reads inv.reads (Family.mem_of_first inv.reads head)
  simp only [allocproc, head, takeUnused, removed, bind, Except.bind, pure, Except.pure,
    Kernel.setNextpid_kmem, Kernel.setLists_kmem, Kernel.setProc_kmem, found,
    Kernel.setKmem_kmem, stops]

theorem allocation_cases (m : Kmem) :
    kalloc m = none ∨
    (∃ page m₁ m₂, kalloc m = some (page, m₁) ∧ procPagetable page m₁ = .ok (none, m₂)) ∨
    (∃ page m₁ f, kalloc m = some (page, m₁) ∧ procPagetable page m₁ = .error f) ∨
    ∃ page pt m₂, Allocates m page pt m₂ := by
  cases first : kalloc m with
  | none => exact .inl rfl
  | some result =>
    obtain ⟨page, m₁⟩ := result
    cases second : procPagetable page m₁ with
    | error f => exact .inr (.inr (.inl ⟨page, m₁, f, rfl, second⟩))
    | ok built =>
      obtain ⟨built, m₂⟩ := built
      cases built with
      | none => exact .inr (.inl ⟨page, m₁, m₂, rfl, second⟩)
      | some pt => exact .inr (.inr (.inr ⟨page, pt, m₂, m₁, first, second⟩))

theorem fork_copy_cases (blncflg : Bool) {pt : PageTable}
    (inv : Inv aff s L) (apart : p ≠ np) (head : s.lists.first .unusedList = some np)
    (found : Allocates s.kmem page pt m₁) :
    (∃ f, ¬ f.OfLists ∧ fork blncflg s p = .error f) ∨ AllocationFails s p ∨
      ∃ new m, ForkAllocates s p page new m := by
  obtain ⟨lists, reads, taken⟩ := allocproc_ok inv.reads head found
  cases table : (s.proc p).pagetable with
  | none =>
    refine .inl ⟨.nullPointer, fun listed => listed.elim, ?_⟩
    simp only [fork, taken, bind, Except.bind, Kernel.setKmem_proc, Kernel.setNextpid_proc,
      Kernel.setLists_proc, Kernel.setProc_proc, update_of_ne apart, table]
  | some old =>
    cases copied : uvmcopy old pt m₁ (s.proc p).sz with
    | error f =>
      refine .inl ⟨f, uvmcopy_stopsIn _ _ _ _ f copied, ?_⟩
      simp only [fork, taken, bind, Except.bind, Kernel.setKmem_proc, Kernel.setNextpid_proc,
        Kernel.setLists_proc, Kernel.setProc_proc, update_self, update_of_ne apart, table,
        allocated, Kernel.setKmem_kmem, copied]
    | ok result =>
      obtain ⟨done, new, m⟩ := result
      cases done with
      | false =>
        exact .inr (.inl (.inr (.inr ⟨page, pt, m₁, old, new, m, found, table, copied⟩)))
      | true => exact .inr (.inr ⟨new, m, old, pt, m₁, table, found, copied⟩)

theorem fork_sound (blncflg : Bool) (inv : Inv aff s L) (state : (s.proc p).state = .RUNNING)
    (allocations : s.lists.first .unusedList ≠ none → ¬ AllocationFails s p)
    (home : aff → blncflg = false → ∀ np, s.lists.first .unusedList = some np →
      (s.proc np).cpuNum = (s.proc p).cpuNum) :
    Sound aff Prod.fst (fork blncflg s p) := by
  cases head : s.lists.first .unusedList with
  | none =>
    have full : fork blncflg s p = .ok (s, -1) := by
      simp only [fork, allocproc, head, bind, Except.bind, pure, Except.pure]
    rw [full]
    exact ⟨L, inv⟩
  | some np =>
    have succeeds := allocations (by rw [head]; exact Option.some_ne_none np)
    have apart := inv.ne_first state head
    rcases allocation_cases s.kmem with none | none | ⟨page, m₁, f, found, stops⟩ |
      ⟨page, pt, m₁, found⟩
    · exact absurd (.inl none) succeeds
    · exact absurd (.inr (.inl none)) succeeds
    · have stopped : fork blncflg s p = .error f := by
        simp only [fork, allocproc_stops inv head found stops, bind, Except.bind]
      rw [stopped]
      exact procPagetable_stopsIn _ _ f stops
    · rcases fork_copy_cases blncflg inv apart head found with ⟨f, other, stopped⟩ | fails |
        ⟨new, m, allocates⟩
      · rw [stopped]
        exact other
      · exact absurd fails succeeds
      · obtain ⟨s', L', ran, inv'⟩ := fork_inv inv state head allocates
          (fun respected off => home respected off np head)
        rw [ran]
        exact ⟨L', inv'⟩

theorem fork_allocates {t : Kernel} {pid : Int} (inv : Inv aff s L)
    (state : (s.proc p).state = .RUNNING) (head : s.lists.first .unusedList = some np)
    (returned : fork blncflg s p = .ok (t, pid)) :
    ∃ page new m, ForkAllocates s p page new m := by
  have apart := inv.ne_first state head
  have fails : ¬ AllocationFails s p := by
    intro fails
    obtain ⟨f, stopped⟩ := fork_fails blncflg inv state head fails
    rw [stopped] at returned
    cases returned
  rcases allocation_cases s.kmem with none | none | ⟨page, m₁, f, found, stops⟩ |
    ⟨page, pt, m₁, found⟩
  · exact absurd (.inl none) fails
  · exact absurd (.inr (.inl none)) fails
  · simp only [fork, allocproc_stops inv head found stops, bind, Except.bind] at returned
    cases returned
  · rcases fork_copy_cases blncflg inv apart head found with ⟨f, _, stopped⟩ | failed |
      ⟨new, m, allocates⟩
    · rw [stopped] at returned
      cases returned
    · exact absurd failed fails
    · exact ⟨page, new, m, allocates⟩

end OsbKernel
