import OsbKernel.Proc.Table

/-!
# Process operations and their runs

`fork`, `exit`, `wait`, `sleep`, `wakeup`, `kill`, `yield`, `setcpu` and the scheduler's dispatch,
each run to its end, and the runs made of them. The process running on a CPU carries out the
operation; without one only the scheduler and interrupt handlers act.
-/

namespace OsbKernel

open Function

/-- `sched`: give the CPU back to its scheduler. -/
def sched (s : Kernel) (c : Cpu) (p : Slot) (at_ : Context) : Except Fault Kernel :=
  if (s.proc p).state = .RUNNING then .error (.panic "sched running")
  else .ok ((s.setProc p ((s.proc p).setContext at_)).setCpuProc c none)

/-- The copies that `fork` makes once memory is there. -/
def forkFields (parent child : Proc) : Proc :=
  { child with
    sz := parent.sz
    trapframe := child.trapframe.bind fun (page, _) =>
      parent.trapframe.map fun (_, regs) => (page, update regs Trapframe.a0 0)
    ofile := fun i => if (parent.ofile i).isSome then parent.ofile i else child.ofile i
    cwd := parent.cwd
    name := safestrcpy child.name parent.name }

def forkEnqueue (blncflg : Bool) (s : Kernel) (p np : Slot) : Except Fault Kernel :=
  let s := s.setProc np ((s.proc np).setState .RUNNABLE)
  if blncflg then do
    let newCpu : Int := leastUsedCpu s.procCount
    let s := s.setProc np ((s.proc np).setCpuNum newCpu)
    let s ← s.countPlacement newCpu
    s.enqueue newCpu np
  else s.enqueue (s.proc p).cpuNum np

def fork (blncflg : Bool) (s : Kernel) (p : Slot) : Except Fault (Kernel × Int) := do
  let (s, np) ← allocproc s
  match np with
  | none => return (s, -1)
  | some np =>
    match (s.proc p).pagetable, (s.proc np).pagetable with
    | some old, some new =>
      let (copied, new, m) ← uvmcopy old new s.kmem (s.proc p).sz
      let s := (s.setProc np ((s.proc np).setPagetable (some new))).setKmem m
      if copied = false then
        let s ← freeproc s np
        return (s, -1)
      let s := s.setProc np (forkFields (s.proc p) (s.proc np))
      let pid := (s.proc np).pid
      let s := s.setProc np ((s.proc np).setParent (some p))
      let s ← forkEnqueue blncflg s p np
      return (s, pid)
    | _, _ => .error .nullPointer

def wakeupEnqueue (blncflg : Bool) (s : Kernel) (p : Slot) : Except Fault Kernel :=
  if blncflg then do
    let newCpu : Int := leastUsedCpu s.procCount
    let s ← s.countPlacement newCpu
    let s := s.setProc p ((s.proc p).setCpuNum newCpu)
    s.enqueue newCpu p
  else s.enqueue 0 p

/-- One round of the loop of `wakeup`. -/
def wakeupSlot (blncflg : Bool) (myproc : Option Slot) (chan : Chan) (s : Kernel) (p : Slot) :
    Except Fault Kernel :=
  if myproc = some p then .ok s
  else if (s.proc p).state = .SLEEPING ∧ (s.proc p).chan = chan then do
    let s := s.setProc p ((s.proc p).setState .RUNNABLE)
    let lists ← s.lists.removeProcFromList .sleepingList p
    wakeupEnqueue blncflg (s.setLists lists) p
  else .ok s

def wakeup (blncflg : Bool) (myproc : Option Slot) (chan : Chan) (s : Kernel) :
    Except Fault Kernel :=
  (List.finRange NPROC).foldlM (wakeupSlot blncflg myproc chan) s

/-- What `kill` does to the slot it has found. -/
def killSlot (s : Kernel) (p : Slot) : Except Fault Kernel := do
  let s := s.setProc p ((s.proc p).setKilled true)
  if (s.proc p).state = .SLEEPING then
    let lists ← s.lists.removeProcFromList .sleepingList p
    let s := (s.setProc p ((s.proc p).setState .RUNNABLE)).setLists lists
    s.enqueue (s.proc p).cpuNum p
  else return s

def killScan (pid : Int) : List Slot → Kernel → Except Fault (Kernel × Int)
  | [], s => .ok (s, -1)
  | p :: rest, s =>
    if (s.proc p).pid = pid then do
      let s ← killSlot s p
      return (s, 0)
    else killScan pid rest s

def kill (s : Kernel) (pid : Int) : Except Fault (Kernel × Int) :=
  killScan pid (List.finRange NPROC) s

/-- One round of the loop of `reparent`. -/
def reparentSlot (blncflg : Bool) (p : Slot) (s : Kernel) (pp : Slot) : Except Fault Kernel :=
  if (s.proc pp).parent = some p then
    let s := s.setProc pp ((s.proc pp).setParent s.initproc)
    wakeup blncflg (some p) (Chan.ofProc s.initproc) s
  else .ok s

/-- Pass the abandoned children of `p` to init. -/
def reparent (blncflg : Bool) (s : Kernel) (p : Slot) : Except Fault Kernel :=
  (List.finRange NPROC).foldlM (reparentSlot blncflg p) s

/-- Exit the process that runs on CPU `c`. -/
def exit (blncflg : Bool) (s : Kernel) (c : Cpu) (p : Slot) (status : Int) :
    Except Fault Kernel := do
  if some p = s.initproc then .error (.panic "init exiting")
  let s := s.setProc p { s.proc p with ofile := fun _ => none, cwd := none }
  let s ← reparent blncflg s p
  let s ← wakeup blncflg (some p) (Chan.ofProc (s.proc p).parent) s
  let s := s.setProc p (((s.proc p).setXstate status).setState .ZOMBIE)
  let lists ← s.lists.addProcToList .zombieList p
  sched (s.setLists lists) c p .inExit

/-- Sleep on a channel.  The caller's lock plays no part when nothing interferes. -/
def sleep (s : Kernel) (c : Cpu) (p : Slot) (chan : Chan) : Except Fault Kernel := do
  let lists ← s.lists.addProcToList .sleepingList p
  let s := (s.setProc p (((s.proc p).setChan chan).setState .SLEEPING)).setLists lists
  sched s c p .inSleep

def yield (s : Kernel) (c : Cpu) (p : Slot) : Except Fault Kernel := do
  let s := s.setProc p ((s.proc p).setState .RUNNABLE)
  let s ← s.enqueue (s.proc p).cpuNum p
  sched s c p .inYield

/-- The four bytes of an `int`, low byte first. -/
def intBytes (n : Int) : List UInt8 :=
  let word := (n % 2 ^ 32).toNat
  (List.range 4).map fun k => UInt8.ofNat (word / 256 ^ k)

inductive WaitScan where
  | reaped (pid : Int)
  | copyoutFailed
  | nothing (havekids : Bool)
  deriving DecidableEq, Repr

/-- `wait` copies the exit status out and frees the zombie. -/
def waitReap (s : Kernel) (p np : Slot) (addr : Nat) : Except Fault (Kernel × WaitScan) := do
  let pid := (s.proc np).pid
  if addr = 0 then
    let s ← freeproc s np
    return (s, .reaped pid)
  match (s.proc p).pagetable with
  | none => .error .nullPointer
  | some pt =>
    let (copied, pt) := copyout pt addr (intBytes (s.proc np).xstate)
    let s := s.setProc p ((s.proc p).setPagetable (some pt))
    if copied = false then return (s, .copyoutFailed)
    let s ← freeproc s np
    return (s, .reaped pid)

/-- The scan of `wait` through the slots still to be looked at. -/
def waitScan (p : Slot) (addr : Nat) : List Slot → Bool → Kernel →
    Except Fault (Kernel × WaitScan)
  | [], havekids, s => .ok (s, .nothing havekids)
  | np :: rest, havekids, s =>
    if (s.proc np).parent = some p then
      if (s.proc np).state = .ZOMBIE then waitReap s p np addr
      else waitScan p addr rest true s
    else waitScan p addr rest havekids s

/-- One round of the loop of `wait`: return a result, or go to sleep and start
over when woken. -/
def wait (s : Kernel) (c : Cpu) (p : Slot) (addr : Nat) : Except Fault (Kernel × Option Int) := do
  let (s, found) ← waitScan p addr (List.finRange NPROC) false s
  match found with
  | .reaped pid => return (s, some pid)
  | .copyoutFailed => return (s, some (-1))
  | .nothing havekids =>
    if havekids = false ∨ (s.proc p).killed = true then return (s, some (-1))
    let s ← sleep s c p (.proc p)
    return (s, none)

/-- What a process does between its dispatch and its return from `sched`'s caller. -/
def resume (s : Kernel) (p : Slot) : Except Fault Kernel :=
  match (s.proc p).context with
  | .inSleep => .ok (s.setProc p ((s.proc p).setChan .null))
  | .inExit => .error (.panic "zombie exit")
  | _ => .ok s

/-- One round of the scheduler loop on CPU `c`. -/
def scheduler (s : Kernel) (c : Cpu) : Except Fault Kernel :=
  match s.lists.first (.runnable c) with
  | none => .ok s
  | some p => do
    let s := (s.setProc p ((s.proc p).setState .RUNNING)).setCpuProc c (some p)
    let lists ← s.lists.removeProcFromList (.runnable c) p
    resume (s.setLists lists) p

/-- The data that system calls other than the process calls, and the user
program itself, change in the slot of the running process. -/
structure UserData where
  sz : Nat
  pagetable : PageTable
  regs : Trapframe
  ofile : Fin NOFILE → Option Nat
  cwd : Nat
  name : Fin 16 → UInt8
  faulted : Bool
  freelist : List Page

/-- Anything a running process does outside `proc.c`. -/
def userStep (s : Kernel) (p : Slot) (d : UserData) : Kernel :=
  (s.setProc p { s.proc p with
    sz := d.sz
    pagetable := some d.pagetable
    trapframe := (s.proc p).trapframe.map fun (page, _) => (page, d.regs)
    ofile := d.ofile
    cwd := some d.cwd
    name := d.name
    killed := (s.proc p).killed || d.faulted }).setKmem ⟨d.freelist⟩

inductive Op where
  | fork (c : Cpu)
  | exit (c : Cpu) (status : Int)
  | wait (c : Cpu) (addr : Nat)
  | sleep (c : Cpu) (chan : Chan)
  | wakeup (c : Cpu) (chan : Chan)
  | kill (c : Cpu) (pid : Int)
  | yield (c : Cpu)
  | setcpu (c : Cpu) (cpuNum : Int)
  | dispatch (c : Cpu)
  | user (c : Cpu) (d : UserData)

def Op.Valid : Op → Prop
  | .setcpu _ n => 0 ≤ n ∧ n < NCPU
  | _ => True

/-- Run a process operation on the process that CPU `c` is running, if any. -/
def Kernel.onCpu (s : Kernel) (c : Cpu) (act : Slot → Except Fault Kernel) : Except Fault Kernel :=
  match s.cpuProc c with
  | none => .ok s
  | some p => act p

def step (blncflg : Bool) (s : Kernel) : Op → Except Fault Kernel
  | .fork c => s.onCpu c fun p => do return (← fork blncflg s p).1
  | .exit c status => s.onCpu c fun p => exit blncflg s c p status
  | .wait c addr => s.onCpu c fun p => do return (← wait s c p addr).1
  | .sleep c chan => s.onCpu c fun p => sleep s c p chan
  | .wakeup c chan => wakeup blncflg (s.cpuProc c) chan s
  | .kill c pid => s.onCpu c fun _ => do return (← kill s pid).1
  | .yield c => s.onCpu c fun p => yield s c p
  | .setcpu c n => s.onCpu c fun p => .ok (s.setProc p ((s.proc p).setCpuNum n))
  | .dispatch c =>
    match s.cpuProc c with
    | none => scheduler s c
    | some _ => .ok s
  | .user c d => s.onCpu c fun p => .ok (userStep s p d)

inductive Reachable (blncflg : Bool) : Kernel → Prop where
  | boot {pages : List Page} {code : PageData} {s : Kernel}
      (booted : OsbKernel.boot pages code = .ok s) : Reachable blncflg s
  | step {s s' : Kernel} (op : Op) (reached : Reachable blncflg s) (valid : op.Valid)
      (ran : step blncflg s op = .ok s') : Reachable blncflg s'

end OsbKernel
