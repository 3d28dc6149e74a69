import OsbKernel.Proc.Fork

/-!
# Booting

`procinit` threads all slots on `unusedList`; `userinit` takes the first of
them for init and puts it on the runnable list of CPU 0.
-/

namespace OsbKernel

open Function LinkedChain ExceptBind

variable {aff : Prop} {blncflg : Bool} {s s' : Kernel} {L L' : ListId → List Slot} {p np : Slot}

theorem procinitLoop_ok (slots : List Slot) (reads : s.lists.Reads L)
    (free : ∀ x ∈ slots, ∀ l, x ∉ L l) (distinct : slots.Nodup)
    (zeros : ∀ x, (s.proc x).cpuNum = 0) :
    ∃ lists, lists.Reads (update L .unusedList (L .unusedList ++ slots)) ∧
      slots.foldlM procinitSlot s = .ok (s.setLists lists) := by
  induction slots generalizing s L with
  | nil => exact ⟨s.lists, by simpa using reads, rfl⟩
  | cons x rest ih =>
    obtain ⟨lists, added, reads'⟩ := Lists.addProcToList_reads (l := .unusedList) reads
      (free x List.mem_cons_self)
    have round : procinitSlot s x = .ok (s.setLists lists) := by
      have same : (s.proc x).setCpuNum 0 = s.proc x := by
        rw [← zeros x, Proc.setCpuNum_self]
      simp only [procinitSlot, added, bind, Except.bind, pure, Except.pure, same,
        Kernel.setProc_self]
    have free' : ∀ y ∈ rest, ∀ l, y ∉ put L .unusedList x l := by
      intro y listed l
      have apart : y ≠ x := by
        rintro rfl
        exact (List.nodup_cons.mp distinct).1 listed
      rw [mem_put_of_ne apart]
      exact free y (List.mem_cons_of_mem x listed) l
    obtain ⟨lists', reads'', ran⟩ :=
      ih (s := s.setLists lists) reads' free' (List.nodup_cons.mp distinct).2 zeros
    refine ⟨lists', ?_, ?_⟩
    · simpa [put] using reads''
    · rw [List.foldlM_cons, round]
      exact ran

def procinitLists : ListId → List Slot :=
  update (fun _ => []) .unusedList (List.finRange NPROC)

theorem procinit_ok (pages : List Page) :
    ∃ lists, lists.Reads procinitLists ∧
      procinit (bss pages) = .ok ((bss pages).setLists lists) := by
  have empty : (initlists (bss pages)).lists.Reads fun _ => [] :=
    ⟨fun _ => rfl, fun member => absurd member List.not_mem_nil⟩
  obtain ⟨lists, reads, ran⟩ := procinitLoop_ok (List.finRange NPROC) empty
    (fun _ _ _ => List.not_mem_nil) (List.nodup_finRange NPROC) (fun _ => rfl)
  exact ⟨lists, reads, ran⟩

theorem mem_procinitLists (p : Slot) : p ∈ procinitLists .unusedList := by
  simp [procinitLists]

variable {lists : Lists} {pages : List Page}

theorem procinit_inv (pages : List Page) (reads : lists.Reads procinitLists) :
    Inv aff ((bss pages).setLists lists) procinitLists where
  reads := reads
  slots p := by
    refine ⟨mem_procinitLists p, zero_range, ?_, fun _ => ⟨rfl, rfl, rfl, rfl, rfl, rfl⟩,
      fun _ => ⟨rfl, rfl⟩, ?_⟩
    · intro _ c listed
      simp [procinitLists] at listed
    · rintro (h | h) <;> cases h
  counters := ⟨0, by simp [bss, onFirstCpu]⟩
  running runs := by cases runs
  alone runs := by cases runs

def initProcess (q : Proc) (page : Page) (pt : PageTable) : Proc :=
  { allocated q 1 page pt with
    sz := PGSIZE
    trapframe := some (page, update (update Trapframe.junk Trapframe.epc 0) Trapframe.sp 4096)
    name := safestrcpy q.name initcodeName
    cwd := some rootInode
    state := .RUNNABLE }

def bootLists : ListId → List Slot := put (drop procinitLists .unusedList 0) (.runnable 0) 0

def booted (pages : List Page) (lists : Lists) (page : Page) (pt : PageTable) (m : Kmem) :
    Kernel :=
  (((((bss pages).setProc 0 (initProcess ((bss pages).proc 0) page pt)).setLists lists).setNextpid
    2).setInitproc (some 0)).setKmem m

def BootAllocates (pages : List Page) (code : PageData) (page : Page) (pt : PageTable)
    (m : Kmem) : Prop :=
  ∃ pt₁ m₁, Allocates ⟨pages⟩ page pt₁ m₁ ∧ uvminit pt₁ m₁ code = .ok (pt, m)

theorem procinit_first (reads : lists.Reads procinitLists) :
    lists.first .unusedList = some 0 := by
  rw [Family.first_eq reads .unusedList]
  rfl

theorem boot_ok {code : PageData} {page : Page} {pt : PageTable} {m : Kmem}
    (allocates : BootAllocates pages code page pt m) :
    ∃ lists, lists.Reads bootLists ∧ boot pages code = .ok (booted pages lists page pt m) := by
  obtain ⟨pt₁, m₁, found, loaded⟩ := allocates
  obtain ⟨lists, reads, ran⟩ := procinit_ok pages
  have head := procinit_first reads
  obtain ⟨lists₁, reads₁, taken⟩ := allocproc_ok (s := (bss pages).setLists lists) reads head found
  obtain ⟨lists₂, added, reads₂⟩ := Lists.addProcToList_reads (l := .runnable 0) reads₁
    (Family.notMem_drop reads (mem_procinitLists 0))
  refine ⟨lists₂, reads₂, ?_⟩
  have index : cpuAt 0 = .ok 0 := cpuAt_cast 0
  simp only [boot, ran, userinit, taken, bind, Except.bind, Kernel.setKmem_proc,
    Kernel.setNextpid_proc, Kernel.setLists_proc, Kernel.setProc_proc, update_self, allocated,
    Kernel.setKmem_kmem, loaded]
  simp only [Kernel.enqueue, index, bind, Except.bind, Kernel.setKmem_lists,
    Kernel.setInitproc_lists, Kernel.setProc_lists, Kernel.setNextpid_lists,
    Kernel.setLists_lists, added, pure, Except.pure]
  simp only [booted, Kernel.setProc, Kernel.setLists, Kernel.setNextpid, Kernel.setKmem,
    Kernel.setInitproc, update_idem, initProcess, allocated]
  rfl

theorem boot_allocates {code : PageData}
    (returned : boot pages code = .ok s) : ∃ page pt m, BootAllocates pages code page pt m := by
  obtain ⟨lists, reads, ran⟩ := procinit_ok pages
  have inv : Inv False ((bss pages).setLists lists) procinitLists := procinit_inv pages reads
  have head := procinit_first reads
  rw [boot, ran] at returned
  obtain ⟨r, allocated, rest⟩ := bind_ok (x := allocproc ((bss pages).setLists lists)) returned
  rcases allocation_cases ((bss pages).setLists lists).kmem with none |
    ⟨page, m₁, m₂, found, none⟩ | ⟨page, m₁, f, found, stops⟩ | ⟨page, pt₁, m₁, found⟩
  · obtain ⟨f, stopped⟩ := allocproc_noTrapframe inv head none
    rw [stopped] at allocated
    cases allocated
  · obtain ⟨f, stopped⟩ := allocproc_noPagetable inv head found none
    rw [stopped] at allocated
    cases allocated
  · have stopped := allocproc_stops inv head found stops
    rw [stopped] at allocated
    cases allocated
  · obtain ⟨lists₁, reads₁, taken⟩ := allocproc_ok inv.reads head found
    rw [taken] at allocated
    cases allocated
    obtain ⟨⟨pt, m⟩, loaded, _⟩ := bind_ok rest
    exact ⟨page, pt, m, pt₁, m₁, found, loaded⟩

theorem boot_booted {code : PageData} (returned : boot pages code = .ok s) :
    ∃ lists page pt m, lists.Reads bootLists ∧ s = booted pages lists page pt m := by
  obtain ⟨page, pt, m, allocates⟩ := boot_allocates returned
  obtain ⟨lists, reads, ran⟩ := boot_ok allocates
  rw [ran] at returned
  cases returned
  exact ⟨lists, page, pt, m, reads, rfl⟩

theorem boot_inv {page : Page} {pt : PageTable} {m : Kmem}
    (reads : lists.Reads bootLists) : Inv aff (booted pages lists page pt m) bootLists := by
  obtain ⟨lists₀, reads₀, _⟩ := procinit_ok pages
  have free := Family.notMem_drop reads₀ (mem_procinitLists 0)
  have before : Inv aff ((bss pages).setLists lists₀) procinitLists := procinit_inv pages reads₀
  refine before.moveIdle (p := 0) reads ?_ ?_ ?_ ⟨0, by simp [booted, bss, onFirstCpu]⟩ rfl
    (by simp [bss])
  · intro x apart l
    rw [bootLists, mem_put_of_ne apart, mem_drop_of_ne apart]
  · intro x apart
    simp [booted, update_of_ne apart]
  · have child : (booted pages lists page pt m).proc 0 =
        initProcess ((bss pages).proc 0) page pt := by
      simp [booted]
    rw [child]
    exact Fits.enqueued free rfl (by simp [initProcess, allocated]) zero_range fun _ => rfl

end OsbKernel
