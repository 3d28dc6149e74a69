import OsbKernel.Proc.Lists
import OsbKernel.Vm.AddressSpace
import Mathlib.Tactic.Simps.Basic

/-!
# The process table and its operations

`proc.c` with every function run to its end before the next one starts. The state is the process
table, the process lists, the per-CPU data, the pid counter and the page allocator. Where a
function gives up the CPU, a slot's `context` keeps the point at which `swtch` will resume it.

`BLNCFLG` is an argument of the functions that test it. Reference counts of files and inodes are
left out: `filedup` and `idup` are the pointer they return.
-/

namespace OsbKernel

open Function

/-- The saved user registers, by word offset in `struct trapframe`. -/
abbrev Trapframe := Fin 36 → UInt64

namespace Trapframe

def epc : Fin 36 := 3
def sp : Fin 36 := 6
def a0 : Fin 36 := 14

/-- The bytes with which `kalloc` fills a page. -/
def junk : Trapframe := fun _ => 0x0505050505050505

end Trapframe

/-- Where `swtch` will resume a process that is not running. -/
inductive Context where
  | zero
  | forkret
  | inYield
  | inSleep
  | inExit
  deriving DecidableEq, Repr

/-- `struct proc` without its locks and its link field, which is kept in the
list state; `kstack` is a constant of the slot. -/
structure Proc where
  state : ProcState
  chan : Chan
  killed : Bool
  xstate : Int
  pid : Int
  cpuNum : Int
  parent : Option Slot
  sz : Nat
  pagetable : Option PageTable
  trapframe : Option (Page × Trapframe)
  context : Context
  ofile : Fin NOFILE → Option Nat
  cwd : Option Nat
  name : Fin 16 → UInt8

namespace Proc

@[simps -fullyApplied] def setState (q : Proc) (state : ProcState) : Proc := { q with state }
@[simps -fullyApplied] def setChan (q : Proc) (chan : Chan) : Proc := { q with chan }
@[simps -fullyApplied] def setKilled (q : Proc) (killed : Bool) : Proc := { q with killed }
@[simps -fullyApplied] def setXstate (q : Proc) (xstate : Int) : Proc := { q with xstate }
@[simps -fullyApplied] def setPid (q : Proc) (pid : Int) : Proc := { q with pid }
@[simps -fullyApplied] def setCpuNum (q : Proc) (cpuNum : Int) : Proc := { q with cpuNum }
@[simps -fullyApplied] def setParent (q : Proc) (parent : Option Slot) : Proc := { q with parent }
@[simps -fullyApplied] def setPagetable (q : Proc) (pagetable : Option PageTable) : Proc := { q with pagetable }
@[simps -fullyApplied] def setTrapframe (q : Proc) (trapframe : Option (Page × Trapframe)) : Proc :=
  { q with trapframe }
@[simps -fullyApplied] def setContext (q : Proc) (context : Context) : Proc := { q with context }

@[simp] theorem setCpuNum_self (q : Proc) : q.setCpuNum q.cpuNum = q := rfl

end Proc

structure Kernel where
  lists : Lists
  proc : Slot → Proc
  cpuProc : Cpu → Option Slot
  procCount : Cpu → Nat
  nextpid : Int
  initproc : Option Slot
  kmem : Kmem

namespace Kernel

@[simps -fullyApplied] def setProc (s : Kernel) (p : Slot) (q : Proc) : Kernel :=
  { s with proc := update s.proc p q }

@[simps -fullyApplied] def setLists (s : Kernel) (lists : Lists) : Kernel := { s with lists }
@[simps -fullyApplied] def setCpuProc (s : Kernel) (c : Cpu) (p : Option Slot) : Kernel :=
  { s with cpuProc := update s.cpuProc c p }
@[simps -fullyApplied] def setProcCount (s : Kernel) (procCount : Cpu → Nat) : Kernel := { s with procCount }
@[simps -fullyApplied] def setNextpid (s : Kernel) (nextpid : Int) : Kernel := { s with nextpid }
@[simps -fullyApplied] def setInitproc (s : Kernel) (initproc : Option Slot) : Kernel := { s with initproc }
@[simps -fullyApplied] def setKmem (s : Kernel) (kmem : Kmem) : Kernel := { s with kmem }

theorem setProc_setProc (s : Kernel) (p : Slot) (q q' : Proc) :
    (s.setProc p q).setProc p q' = s.setProc p q' := by
  simp [setProc]

theorem setProc_self (s : Kernel) (p : Slot) : s.setProc p (s.proc p) = s := by
  simp [setProc]

end Kernel

/-- The loop of `leastUsedCpu` over the counters still to be read. -/
def leastUsedLoop : List Nat → Nat → Nat
  | [], least => least
  | count :: rest, least => leastUsedLoop rest (if least > count then count else least)

/-- `leastUsedCpu` returns the smallest counter value it has seen, starting
from `NPROC`. -/
def leastUsedCpu (procCount : Cpu → Nat) : Nat :=
  leastUsedLoop ((List.finRange NCPU).map procCount) NPROC

/-- `cas` on the low word of a counter: the result code and the new contents.
The upper word of the 64-bit counter is not touched. -/
def cas (word expected newval : Nat) : Nat × Nat :=
  if word % 2 ^ 32 = expected % 2 ^ 32 then
    (0, word / 2 ^ 32 * 2 ^ 32 + newval % 2 ^ 32)
  else (1, word)

/-- `do{}while(cas(&count, count, count+1))` without interference: the first
round succeeds. -/
def casIncrement (count : Nat) : Nat := (cas count count (count + 1)).2

/-- Append a slot to `cpus[i].runnable`. -/
def Kernel.enqueue (s : Kernel) (i : Int) (p : Slot) : Except Fault Kernel := do
  let c ← cpuAt i
  let lists ← s.lists.addProcToList (.runnable c) p
  return s.setLists lists

def Kernel.countPlacement (s : Kernel) (i : Int) : Except Fault Kernel := do
  let c ← cpuAt i
  return s.setProcCount (update s.procCount c (casIncrement (s.procCount c)))

def intSucc (n : Int) : Int := (n + 1).bmod (2 ^ 32)

/-- A user page table with the trampoline and the trapframe mapped. -/
def procPagetable (trapframe : Page) (m : Kmem) : Except Fault (Option PageTable × Kmem) := do
  match uvmcreate m with
  | none => return (none, m)
  | some (pt, m) =>
    let (mapped, pt, m) ← mappages pt m TRAMPOLINE ⟨0, PTE_R ||| PTE_X, fun _ => 0⟩
    if mapped = false then
      let m ← uvmfree pt m 0
      return (none, m)
    let (mapped, pt, m) ← mappages pt m TRAPFRAME ⟨trapframe, PTE_R ||| PTE_W, fun _ => 0⟩
    if mapped = false then
      let (pt, m) ← uvmunmap pt m TRAMPOLINE 1 false
      let m ← uvmfree pt m 0
      return (none, m)
    return (some pt, m)

def procFreepagetable (pt : PageTable) (m : Kmem) (sz : Nat) : Except Fault Kmem := do
  let (pt, m) ← uvmunmap pt m TRAMPOLINE 1 false
  let (pt, m) ← uvmunmap pt m TRAPFRAME 1 false
  uvmfree pt m sz

/-- The field assignments of `freeproc`. -/
def Proc.reset (q : Proc) : Proc :=
  { q with
    trapframe := none
    pagetable := none
    sz := 0
    pid := 0
    parent := none
    name := update q.name 0 0
    chan := .null
    killed := false
    xstate := 0
    state := .UNUSED }

/-- The pages that `freeproc` gives back. -/
def freePages (q : Proc) (m : Kmem) : Except Fault Kmem := do
  let m := match q.trapframe with
    | some (page, _) => kfree m page
    | none => m
  match q.pagetable with
  | some pt => procFreepagetable pt m q.sz
  | none => return m

/-- Free a slot and the data hanging from it.  The slot is taken off
`zombieList`, whoever calls. -/
def freeproc (s : Kernel) (p : Slot) : Except Fault Kernel := do
  let m ← freePages (s.proc p) s.kmem
  let lists ← s.lists.removeProcFromList .zombieList p
  let lists ← lists.addProcToList .unusedList p
  return ((s.setProc p (s.proc p).reset).setLists lists).setKmem m

/-- Pick the first slot of `unusedList`, give it a pid and mark it `USED`. -/
def takeUnused (s : Kernel) (p : Slot) : Except Fault Kernel := do
  let lists ← s.lists.removeProcFromList .unusedList p
  return ((s.setProc p (((s.proc p).setPid s.nextpid).setState .USED)).setLists lists).setNextpid
    (intSucc s.nextpid)

/-- Allocate a slot with a trapframe and an empty user page table. -/
def allocproc (s : Kernel) : Except Fault (Kernel × Option Slot) := do
  match s.lists.first .unusedList with
  | none => return (s, none)
  | some p =>
    let s ← takeUnused s p
    match kalloc s.kmem with
    | none =>
      let s ← freeproc (s.setProc p ((s.proc p).setTrapframe none)) p
      return (s, none)
    | some (page, m) =>
      let s := (s.setProc p ((s.proc p).setTrapframe (some (page, Trapframe.junk)))).setKmem m
      let (pagetable, m) ← procPagetable page s.kmem
      let s := (s.setProc p ((s.proc p).setPagetable pagetable)).setKmem m
      match pagetable with
      | none =>
        let s ← freeproc s p
        return (s, none)
      | some _ =>
        return (s.setProc p ((s.proc p).setContext .forkret), some p)

/-- The zero-initialised memory at the start of `main`, with the page
allocator filled. -/
def bss (pages : List Page) : Kernel where
  lists := { first := fun _ => some 0, next := fun _ => some 0 }
  proc _ :=
    { state := .UNUSED, chan := .null, killed := false, xstate := 0, pid := 0, cpuNum := 0,
      parent := none, sz := 0, pagetable := none, trapframe := none, context := .zero,
      ofile := fun _ => none, cwd := none, name := fun _ => 0 }
  cpuProc _ := none
  procCount _ := 0
  nextpid := 1
  initproc := none
  kmem := ⟨pages⟩

def initlists (s : Kernel) : Kernel :=
  (s.setLists { s.lists with first := fun _ => none }).setProcCount fun _ => 0

/-- One round of the loop of `procinit`. -/
def procinitSlot (s : Kernel) (p : Slot) : Except Fault Kernel := do
  let lists ← s.lists.addProcToList .unusedList p
  return (s.setProc p ((s.proc p).setCpuNum 0)).setLists lists

def procinit (s : Kernel) : Except Fault Kernel :=
  (List.finRange NPROC).foldlM procinitSlot (initlists s)

/-- `safestrcpy(s, t, 16)` from position `k` on, with `n` as the loop counts it. -/
def safestrcpyLoop (t : Fin 16 → UInt8) : Nat → Fin 16 → (Fin 16 → UInt8) → Fin 16 → UInt8
  | 0, k, s => update s k 0
  | n + 1, k, s =>
    let s := update s k (t k)
    if t k = 0 then update s (k + 1) 0 else safestrcpyLoop t n (k + 1) s

/-- `safestrcpy` between two 16-byte name fields. -/
def safestrcpy (s t : Fin 16 → UInt8) : Fin 16 → UInt8 := safestrcpyLoop t 15 0 s

def nameOf (text : List UInt8) : Fin 16 → UInt8 := fun k => text[k.val]?.getD 0

def initcodeName : Fin 16 → UInt8 := nameOf [105, 110, 105, 116, 99, 111, 100, 101]

/-- The inode that `namei("/")` returns. -/
def rootInode : Nat := 1

/-- Load `initcode` at address 0; neither allocation is checked for failure. -/
def uvminit (pt : PageTable) (m : Kmem) (code : PageData) : Except Fault (PageTable × Kmem) :=
  match kalloc m with
  | none => .error .nullPointer
  | some (mem, m) => do
    let (_, pt, m) ← mappages pt m 0 ⟨mem, PTE_W ||| PTE_R ||| PTE_X ||| PTE_U, code⟩
    return (pt, m)

def userinit (code : PageData) (s : Kernel) : Except Fault Kernel := do
  let (s, np) ← allocproc s
  match np with
  | none => .error .nullPointer
  | some p =>
    match (s.proc p).pagetable, (s.proc p).trapframe with
    | some pt, some (page, regs) => do
      let (pt, m) ← uvminit pt s.kmem code
      let regs := update (update regs Trapframe.epc 0) Trapframe.sp 4096
      let q := { s.proc p with
        pagetable := some pt
        sz := PGSIZE
        trapframe := some (page, regs)
        name := safestrcpy (s.proc p).name initcodeName
        cwd := some rootInode
        state := .RUNNABLE }
      (((s.setProc p q).setInitproc (some p)).setKmem m).enqueue 0 p
    | _, _ => .error .nullPointer

/-- `procinit` and `userinit`, as `main` calls them on the first CPU. -/
def boot (pages : List Page) (code : PageData) : Except Fault Kernel := do
  let s ← procinit (bss pages)
  userinit code s

end OsbKernel
