import OsbKernel.Proc.Runs
import Mathlib.Order.WellFounded

/-!
# What a reused slot passes on to a new process

A slot is reset in four places: `exit` closes the files, `freeproc` clears most fields,
`allocproc` sets up the kernel side, and `fork` copies from the parent. They miss `cpuNum`, which
nothing resets when `BLNCFLG` is off, `killed`, which `kill` can set in a free slot, and the bytes
of `name` behind the terminator. Two children of one parent agree exactly when their free slots
agreed on those.
-/

namespace OsbKernel

open Function LinkedChain ExceptBind

/-- A position that `safestrcpy` does not reach: it stops one behind the terminator. -/
def Stale (t : Fin 16 → UInt8) (k : Fin 16) : Prop := ∃ j : Fin 16, j.val + 1 < k.val ∧ t j = 0

instance (t : Fin 16 → UInt8) (k : Fin 16) : Decidable (Stale t k) :=
  inferInstanceAs (Decidable (∃ j : Fin 16, j.val + 1 < k.val ∧ t j = 0))

/-- The byte that `safestrcpy` writes where it writes. -/
def copiedByte (t : Fin 16 → UInt8) (k : Fin 16) : UInt8 :=
  if k = 15 ∨ ∃ j, j < k ∧ t j = 0 then 0 else t k

variable {t : Fin 16 → UInt8} {k : Fin 16} {np : Slot}

theorem copiedByte_of_clear (notLast : k ≠ 15)
    (clear : ∀ j, j < k → t j ≠ 0) : copiedByte t k = t k := by
  rw [copiedByte, if_neg]
  rintro (last | ⟨j, before, zero⟩)
  · exact notLast last
  · exact clear j before zero

theorem not_stale_of_clear {i : Fin 16} (clear : ∀ j, j < k → t j ≠ 0)
    (near : i.val ≤ k.val + 1) : ¬ Stale t i := by
  rintro ⟨j, before, zero⟩
  exact clear j (Fin.lt_def.mpr (by omega)) zero

theorem safestrcpyLoop_apply (t : Fin 16 → UInt8) (n : Nat) (k : Fin 16) (s : Fin 16 → UInt8)
    (room : k.val + n = 15) (clear : ∀ j, j < k → t j ≠ 0) (i : Fin 16) :
    safestrcpyLoop t n k s i =
      if i < k then s i else if Stale t i then s i else copiedByte t i := by
  induction n generalizing k s with
  | zero =>
    have last : k = 15 := Fin.ext (by simpa using room)
    subst last
    rw [safestrcpyLoop]
    by_cases here : i = 15
    · subst here
      rw [update_self, if_neg (lt_irrefl _), if_neg (not_stale_of_clear clear (by simp)),
        copiedByte, if_pos (.inl rfl)]
    · have before : i < 15 := lt_of_le_of_ne (Fin.le_last i) here
      rw [update_of_ne here, if_pos before]
  | succ n ih =>
    have notLast : k ≠ 15 := by
      rintro rfl
      simp at room
    have next : (k + 1).val = k.val + 1 :=
      Fin.val_add_one_of_lt (lt_of_le_of_ne (Fin.le_last k) notLast)
    have clearAt : copiedByte t k = t k := copiedByte_of_clear notLast clear
    have notStale : ¬ Stale t k := not_stale_of_clear clear (by omega)
    rw [safestrcpyLoop]
    by_cases zero : t k = 0
    · -- the terminator is copied and one more zero is written behind it
      rw [if_pos zero]
      rcases lt_trichotomy i k with before | rfl | after
      · have far : i ≠ k + 1 := fun same => by
          have := Fin.lt_def.mp before
          omega
        rw [update_of_ne far, update_of_ne (ne_of_lt before), if_pos before]
      · have apart : i ≠ i + 1 := fun same => by
          omega
        rw [update_of_ne apart, update_self, if_neg (lt_irrefl i), if_neg notStale, clearAt]
      · rw [if_neg (not_lt_of_gt after)]
        by_cases second : i = k + 1
        · subst second
          rw [update_self, if_neg (not_stale_of_clear clear (le_of_eq next)), copiedByte,
            if_pos (.inr ⟨k, after, zero⟩)]
        · have behind : k.val + 1 < i.val := by
            omega
          rw [update_of_ne second, update_of_ne (ne_of_gt after), if_pos ⟨k, behind, zero⟩]
    · rw [if_neg zero]
      have clear' : ∀ j, j < k + 1 → t j ≠ 0 := by
        intro j before
        have low : j ≤ k := Fin.le_def.mpr (by have := Fin.lt_def.mp before; omega)
        rcases eq_or_lt_of_le low with rfl | earlier
        · exact zero
        · exact clear j earlier
      rw [ih (k + 1) _ (by omega) clear']
      rcases lt_trichotomy i k with before | rfl | after
      · have before' : i < k + 1 := Fin.lt_def.mpr (by have := Fin.lt_def.mp before; omega)
        rw [if_pos before', if_pos before, update_of_ne (ne_of_lt before)]
      · have before' : i < i + 1 := Fin.lt_def.mpr (by omega)
        rw [if_pos before', if_neg (lt_irrefl i), if_neg notStale, update_self, clearAt]
      · have after' : ¬ i < k + 1 := fun before => by
          omega
        rw [if_neg after', if_neg (not_lt_of_gt after), update_of_ne (ne_of_gt after)]

theorem safestrcpy_apply (s t : Fin 16 → UInt8) (k : Fin 16) :
    safestrcpy s t k = if Stale t k then s k else copiedByte t k := by
  have clear : ∀ j, j < 0 → t j ≠ 0 := fun j before => absurd before (Fin.not_lt_zero j)
  rw [safestrcpy, safestrcpyLoop_apply t 15 0 s rfl clear, if_neg (Fin.not_lt_zero k)]

theorem safestrcpy_eq_iff (s s' t : Fin 16 → UInt8) :
    safestrcpy s t = safestrcpy s' t ↔ ∀ k, Stale t k → s k = s' k := by
  constructor
  · intro same k stale
    have here := congrFun same k
    rwa [safestrcpy_apply, safestrcpy_apply, if_pos stale, if_pos stale] at here
  · intro same
    funext k
    rw [safestrcpy_apply, safestrcpy_apply]
    split
    · exact same k ‹_›
    · rfl

def cString (name : Fin 16 → UInt8) (k : Fin 16) : Option UInt8 :=
  if ∃ j, j ≤ k ∧ name j = 0 then none else some (name k)

theorem terminator_before_stale (stale : Stale t k)
    (s : Fin 16 → UInt8) : ∃ j, j ≤ k ∧ safestrcpy s t j = 0 := by
  obtain ⟨j₀, before, zero₀⟩ := stale
  have wf : WellFounded ((· < ·) : Fin 16 → Fin 16 → Prop) := wellFounded_lt
  obtain ⟨j, zero, least⟩ := wf.has_min {j | t j = 0} ⟨j₀, zero₀⟩
  have low : j ≤ j₀ := not_lt.mp (least j₀ zero₀)
  have clear : ∀ i, i < j → t i ≠ 0 := fun i before zero => least i zero before
  have notLast : j ≠ 15 := by
    rintro rfl
    have := Fin.le_def.mp low
    omega
  refine ⟨j, Fin.le_def.mpr (by have := Fin.le_def.mp low; omega), ?_⟩
  rw [safestrcpy_apply, if_neg (not_stale_of_clear clear (by omega)),
    copiedByte_of_clear notLast clear]
  exact zero

theorem cString_safestrcpy (s s' t : Fin 16 → UInt8) :
    cString (safestrcpy s t) = cString (safestrcpy s' t) := by
  funext k
  unfold cString
  by_cases stale : Stale t k
  · rw [if_pos (terminator_before_stale stale s), if_pos (terminator_before_stale stale s')]
  · have same : ∀ j, j ≤ k → safestrcpy s t j = safestrcpy s' t j := by
      intro j low
      have fresh : ¬ Stale t j := by
        rintro ⟨i, before, zero⟩
        exact stale ⟨i, lt_of_lt_of_le before (Fin.le_def.mp low), zero⟩
      rw [safestrcpy_apply, safestrcpy_apply, if_neg fresh, if_neg fresh]
    have iff : (∃ j, j ≤ k ∧ safestrcpy s t j = 0) ↔ ∃ j, j ≤ k ∧ safestrcpy s' t j = 0 := by
      constructor
      · rintro ⟨j, low, zero⟩
        exact ⟨j, low, by rw [← same j low]; exact zero⟩
      · rintro ⟨j, low, zero⟩
        exact ⟨j, low, by rw [same j low]; exact zero⟩
    simp only [iff, same k le_rfl]

variable {s₁ s₂ t₁ t₂ : Kernel} {p np₁ np₂ : Slot} {c₁ c₂ : Cpu} {pid₁ pid₂ : Int}

def Proc.byteAt (q : Proc) (va : Nat) : Option UInt8 :=
  if va < q.sz then q.pagetable.bind fun pt => (pt.leaf (va / PGSIZE)).map (·.data (va % PGSIZE))
  else none

structure SameProcess (q q' : Proc) : Prop where
  state : q.state = q'.state
  chan : q.chan = q'.chan
  killed : q.killed = q'.killed
  xstate : q.xstate = q'.xstate
  cpuNum : q.cpuNum = q'.cpuNum
  sz : q.sz = q'.sz
  name : cString q.name = cString q'.name
  parent : q.parent = q'.parent
  trapframe : q.trapframe.map Prod.snd = q'.trapframe.map Prod.snd
  memory : ∀ va, q.byteAt va = q'.byteAt va
  ofile : q.ofile = q'.ofile
  cwd : q.cwd = q'.cwd

theorem forkChild_byteAt {s : Kernel} {q : Proc} {pid : Int} {page : Page} {new : PageTable}
    {m : Kmem} (allocates : ForkAllocates s p page new m) (va : Nat) :
    (forkChild false p (s.proc p) q pid page new).byteAt va = (s.proc p).byteAt va := by
  obtain ⟨old, pt, m₁, table, _, copied⟩ := allocates
  unfold Proc.byteAt
  by_cases below : va < (s.proc p).sz
  · have inside : va / PGSIZE < pagesBelow (s.proc p).sz := by
      unfold pagesBelow PGSIZE
      omega
    obtain ⟨e, e', there, here, same⟩ := uvmcopy_copied copied inside
    simp [forkChild, forkFields, allocated, below, table, there, here, same]
  · simp [forkChild, forkFields, below]

theorem fork_child {s t : Kernel} {c : Cpu} {pid : Int}
    (reached : Reachable false s) (runs : s.cpuProc c = some p)
    (head : s.lists.first .unusedList = some np) (returned : fork false s p = .ok (t, pid)) :
    ∃ page new m, ForkAllocates s p page new m ∧ Clean (s.proc np) ∧ Closed (s.proc np) ∧
      t.proc np = forkChild false p (s.proc p) (s.proc np) s.nextpid page new := by
  obtain ⟨L, inv⟩ := reachable_inv reached
  have state := inv.running runs
  have free : (s.proc np).state = .UNUSED :=
    inv.state_of_listed (Family.mem_of_first inv.reads head)
  obtain ⟨page, new, m, allocates⟩ := fork_allocates inv state head returned
  obtain ⟨home, _, own⟩ := cpuAt_of_range (inv.slots p).range.1 (inv.slots p).range.2
  obtain ⟨lists, procCount, _, _, ran⟩ := fork_ok false inv state head allocates own.symm
  rw [ran] at returned
  cases returned
  refine ⟨page, new, m, allocates, (inv.slots np).clean free, (inv.slots np).closed (.inl free), ?_⟩
  simp [forked]

/-- Two successful forks of one parent, from whatever states of whatever runs,
make equal children exactly when the free slots they use agree on `cpuNum` and
`killed`; the bytes of the name agree exactly when the slots agree on the bytes
behind the terminator. -/
theorem fork_children_agree_iff (reached₁ : Reachable false s₁) (reached₂ : Reachable false s₂)
    (runs₁ : s₁.cpuProc c₁ = some p) (runs₂ : s₂.cpuProc c₂ = some p)
    (parent : s₁.proc p = s₂.proc p)
    (head₁ : s₁.lists.first .unusedList = some np₁) (head₂ : s₂.lists.first .unusedList = some np₂)
    (forks₁ : fork false s₁ p = .ok (t₁, pid₁)) (forks₂ : fork false s₂ p = .ok (t₂, pid₂)) :
    (SameProcess (t₁.proc np₁) (t₂.proc np₂) ↔
      (s₁.proc np₁).cpuNum = (s₂.proc np₂).cpuNum ∧
        (s₁.proc np₁).killed = (s₂.proc np₂).killed) ∧
    ((t₁.proc np₁).name = (t₂.proc np₂).name ↔
      ∀ k, Stale (s₁.proc p).name k → (s₁.proc np₁).name k = (s₂.proc np₂).name k) := by
  obtain ⟨page₁, new₁, m₁, allocates₁, clean₁, closed₁, child₁⟩ :=
    fork_child reached₁ runs₁ head₁ forks₁
  obtain ⟨page₂, new₂, m₂, allocates₂, clean₂, closed₂, child₂⟩ :=
    fork_child reached₂ runs₂ head₂ forks₂
  have memory : ∀ va, (t₁.proc np₁).byteAt va = (t₂.proc np₂).byteAt va := by
    intro va
    rw [child₁, child₂, forkChild_byteAt allocates₁, forkChild_byteAt allocates₂, parent]
  rw [child₁, child₂] at memory ⊢
  refine ⟨⟨fun same => ⟨same.cpuNum, same.killed⟩, fun ⟨cpuNum, killed⟩ => ?_⟩, ?_⟩
  · refine ⟨rfl, ?_, killed, ?_, cpuNum, ?_, ?_, rfl, ?_, memory, ?_, ?_⟩
    · simp [forkChild, forkFields, allocated, clean₁.chan, clean₂.chan]
    · simp [forkChild, forkFields, allocated, clean₁.xstate, clean₂.xstate]
    · simp [forkChild, forkFields, parent]
    · simpa [forkChild, forkFields, allocated, parent] using cString_safestrcpy _ _ _
    · simp [forkChild, forkFields, allocated, parent, comp_def]
    · simp [forkChild, forkFields, allocated, parent, closed₁.1, closed₂.1]
    · simp [forkChild, forkFields, parent]
  · rw [parent]
    exact safestrcpy_eq_iff _ _ _

/-! ## A slot that is used twice

Init moves to CPU 1 and forks; the child, in slot 1, moves to some CPU, exits and
is reaped.  Init then forks until slot 1 is the first free slot again. -/

def reuseSlot (cpu : Int) : List Op :=
  [.dispatch 0, .setcpu 0 1, .fork 0, .dispatch 1, .setcpu 1 cpu, .exit 1 0, .wait 0 0] ++
    List.replicate 62 (.fork 0)

/-- What init has had since boot and the pages that are free then: as a step of init it changes
nothing. -/
def initData : UserData where
  sz := PGSIZE
  pagetable := {
    root := 2
    mid i := if i = 0 then some 6 else if i = 255 then some 3 else none
    low i := if i = (0, 0) then some 7 else if i = (255, 511) then some 4 else none
    leaf vpn := if vpn = 0 then some ⟨5, 31, fun _ => 0⟩ else if vpn = 0x3fffffe then
      some ⟨1, 7, fun _ => 0⟩ else if vpn = 0x3ffffff then some ⟨0, 11, fun _ => 0⟩ else none }
  regs := update (update Trapframe.junk Trapframe.epc 0) Trapframe.sp 4096
  ofile := fun _ => none
  cwd := rootInode
  name := safestrcpy (fun _ => 0) initcodeName
  faulted := false
  freelist := List.range' 442 7

def movedInit : Proc :=
  { initData with
    state := .RUNNING, chan := .null, killed := false, xstate := 0, pid := 1, cpuNum := 1
    parent := none, context := .forkret, pagetable := some initData.pagetable
    trapframe := some (1, initData.regs), cwd := some initData.cwd }

/-- Slot 1, last used by a process that had moved to CPU 0 or CPU 2, is the only free slot. -/
theorem slot_reused (cpu : Int) (moved : cpu ∈ [0, 2]) :
    ∃ s t pid, Reachable false s ∧ s.cpuProc 0 = some 0 ∧ s.proc 0 = movedInit ∧
      s.lists.first .unusedList = some 1 ∧ fork false s 0 = .ok (t, pid) ∧
      (t.proc 1).cpuNum = cpu := by
  have ran : ∀ cpu ∈ [0, 2], ((bootRun false (fun _ => Op.Valid) 448 (reuseSlot cpu)).bind fun s =>
      (fork false (userStep s 0 initData) 0).toOption.map fun r => decide
        (s.cpuProc 0 = some 0 ∧ s.lists.first .unusedList = some 1 ∧ (r.1.proc 1).cpuNum = cpu ∧
          (s.proc 0).state = .RUNNING ∧ (s.proc 0).chan = .null ∧ (s.proc 0).killed = false ∧
          (s.proc 0).xstate = 0 ∧ (s.proc 0).pid = 1 ∧ (s.proc 0).cpuNum = 1 ∧
          (s.proc 0).parent = none ∧ (s.proc 0).context = .forkret ∧
          (s.proc 0).trapframe.map Prod.fst = some 1)) = some true := by
    decide +kernel
  obtain ⟨s, found, rest⟩ := Option.bind_eq_some_iff.mp (ran cpu moved)
  obtain ⟨⟨t, pid⟩, forks, now⟩ := Option.map_eq_some_iff.mp rest
  obtain ⟨runs, head, child, state, chan, killed, xstate, pid₀, cpuNum, parent, context, frame⟩ :=
    of_decide_eq_true now
  obtain ⟨⟨page, regs⟩, saved, rfl⟩ := Option.map_eq_some_iff.mp frame
  have stepped : step false s (.user 0 initData) = .ok (userStep s 0 initData) := by
    simp only [step, Kernel.onCpu, runs]
  refine ⟨userStep s 0 initData, t, pid, .step (.user 0 _) (reachable_bootRun found) trivial stepped,
    runs, ?_, head, toOption_some forks, child⟩
  simp only [userStep, Kernel.setKmem_proc, Kernel.setProc_proc, update_self, state, chan, killed,
    xstate, pid₀, cpuNum, parent, context, saved]
  rfl

/-- The slot was last used by a process that stayed on CPU 0, or by one that
moved to CPU 2: the next child in it has `cpuNum` 0, or 2. -/
theorem fork_children_differ :
    ∃ s₁ s₂ t₁ t₂ pid₁ pid₂, Reachable false s₁ ∧ Reachable false s₂ ∧
      s₁.cpuProc 0 = some 0 ∧ s₂.cpuProc 0 = some 0 ∧ s₁.proc 0 = s₂.proc 0 ∧
      s₁.lists.first .unusedList = some 1 ∧ s₂.lists.first .unusedList = some 1 ∧
      fork false s₁ 0 = .ok (t₁, pid₁) ∧ fork false s₂ 0 = .ok (t₂, pid₂) ∧
      ¬ SameProcess (t₁.proc 1) (t₂.proc 1) := by
  obtain ⟨s₁, t₁, pid₁, reached₁, runs₁, init₁, head₁, forks₁, zero⟩ := slot_reused 0 (by simp)
  obtain ⟨s₂, t₂, pid₂, reached₂, runs₂, init₂, head₂, forks₂, two⟩ := slot_reused 2 (by simp)
  refine ⟨s₁, s₂, t₁, t₂, pid₁, pid₂, reached₁, reached₂, runs₁, runs₂, init₁.trans init₂.symm,
    head₁, head₂, forks₁, forks₂, fun same => ?_⟩
  have cpuNum := same.cpuNum
  rw [zero, two] at cpuNum
  cases cpuNum

/-- The same two forks, compared by the general result. -/
theorem fork_children_agree_iff_reused :
    ∃ s₁ s₂ t₁ t₂ pid₁ pid₂, Reachable false s₁ ∧ Reachable false s₂ ∧
      fork false s₁ 0 = .ok (t₁, pid₁) ∧ fork false s₂ 0 = .ok (t₂, pid₂) ∧
      (SameProcess (t₁.proc 1) (t₂.proc 1) ↔
        (s₁.proc 1).cpuNum = (s₂.proc 1).cpuNum ∧ (s₁.proc 1).killed = (s₂.proc 1).killed) := by
  obtain ⟨s₁, t₁, pid₁, reached₁, runs₁, init₁, head₁, forks₁, _⟩ := slot_reused 0 (by simp)
  obtain ⟨s₂, t₂, pid₂, reached₂, runs₂, init₂, head₂, forks₂, _⟩ := slot_reused 2 (by simp)
  exact ⟨s₁, s₂, t₁, t₂, pid₁, pid₂, reached₁, reached₂, forks₁, forks₂,
    (fork_children_agree_iff reached₁ reached₂ runs₁ runs₂ (init₁.trans init₂.symm) head₁ head₂
      forks₁ forks₂).1⟩

end OsbKernel
