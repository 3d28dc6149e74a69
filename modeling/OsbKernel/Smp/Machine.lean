import OsbKernel.Sync.ListRuns
import OsbKernel.Proc.Ops

/-!
# The kernel on several CPUs

The functions of `proc.c` as all CPUs run them at the same time. Every CPU executes one thread:
its scheduler, or the kernel thread of a process. A thread is a stack of frames: places in the
functions with their live local variables. One step of a CPU is one `acquire` or `release` with
the code behind it, one step of a call of a list function, or one `swtch`.

Code outside `proc.c`, interrupt handlers included, is one kind of frame: it may take and give
back locks of its own, sleep with one of them held, and call `wakeup`. Interrupts arrive when the
CPU holds no lock.

What happened is recorded in a log, which no function reads.
-/

namespace OsbKernel

open Function

inductive KLock where
  | proc (p : Slot)
  | pidLock
  | waitLock
  | other (n : Nat)
  deriving DecidableEq, Repr

/-- The fields of `struct proc` that `p->lock` protects, and `cpu_num`. -/
structure Pcb where
  state : ProcState
  chan : Chan
  killed : Bool
  xstate : Int
  pid : Int
  cpuNum : Int
  deriving DecidableEq, Repr

/-- Where a thread stands in a function; the first word of a name is the function.  `Add` and
`Remove` wait for that call on a list, and `Skip` releases a slot that is passed over.  `todo` is
what a loop still has to look at.  `code` is other code, with the locks it holds. -/
inductive Frame where
  | code (held : List Nat)
  | forkLook
  | forkNone
  | forkGot (np : Slot)
  | forkPid (np : Slot) (pid : Int)
  | forkRemove (np : Slot)
  | forkLink (np : Slot) (pid : Int)
  | forkLinked (np : Slot) (pid : Int)
  | forkReady (np : Slot) (pid : Int)
  | forkAdd (np : Slot) (pid : Int) (t : Cpu)
  | exitStart (status : Int)
  | exitReparent (status : Int) (todo : List Slot)
  | exitLock (status : Int)
  | exitAdd
  | exitSwitch
  | exitGone
  | waitStart (addr : Nat)
  | waitScan (addr : Nat) (todo : List Slot) (havekids : Bool)
  | waitSkip (addr : Nat) (np : Slot) (todo : List Slot)
  | waitFail (np : Slot)
  | waitFailed (np : Slot)
  | waitRemove (np : Slot) (pid status : Int)
  | waitAdd (np : Slot) (pid status : Int)
  | waitDone (np : Slot) (pid status : Int)
  | sleepStart (chan : Chan) (lk : KLock)
  | sleepAdd (chan : Chan) (lk : KLock)
  | sleepSet (chan : Chan) (lk : KLock)
  | sleepSwitch (chan : Chan) (lk : KLock)
  | sleepResume (lk : KLock)
  | sleepRelock (lk : KLock)
  | yieldStart
  | yieldAdd (t : Cpu)
  | yieldResume
  | wakeLoop (n : Nat) (chan : Chan) (todo : List Slot)
  | wakeRemove (n : Nat) (chan : Chan) (q : Slot) (todo : List Slot)
  | wakeAdd (n : Nat) (chan : Chan) (q : Slot) (t : Cpu) (todo : List Slot)
  | wakeSkip (n : Nat) (chan : Chan) (q : Slot) (todo : List Slot)
  | killLoop (pid : Int) (todo : List Slot)
  | killSkip (pid : Int) (q : Slot) (todo : List Slot)
  | killRemove (q : Slot)
  | killAdd (q : Slot) (t : Cpu)
  | killDone (q : Slot)
  | forkret
  | schedIdle
  | schedLook
  | schedNone
  | schedGot (p : Slot)
  | schedRemove (p : Slot)
  | schedBack (p : Slot)
  deriving DecidableEq, Repr

inductive Place where
  | home
  | sleeping
  | runnable
  | call
  deriving DecidableEq, Repr

structure Hold where
  slot : Slot
  mine : Bool
  state : Option ProcState
  place : Place
  deriving DecidableEq, Repr

/-- The slot whose `p->lock` a frame holds; `self` is the process of the thread. -/
def Frame.hold (self : Option Slot) : Frame → Option Hold
  | .forkGot np => some ⟨np, false, some .UNUSED, .home⟩
  | .forkPid np _ => some ⟨np, false, some .UNUSED, .home⟩
  | .forkRemove np => some ⟨np, false, some .UNUSED, .call⟩
  | .forkAdd np _ _ => some ⟨np, false, some .RUNNABLE, .call⟩
  | .exitAdd => self.map (⟨·, true, some .ZOMBIE, .call⟩)
  | .exitSwitch => self.map (⟨·, true, some .ZOMBIE, .home⟩)
  | .waitSkip _ np _ => some ⟨np, false, none, .home⟩
  | .waitFail np => some ⟨np, false, some .ZOMBIE, .home⟩
  | .waitRemove np _ _ => some ⟨np, false, some .ZOMBIE, .call⟩
  | .waitAdd np _ _ => some ⟨np, false, some .UNUSED, .call⟩
  | .sleepAdd _ _ => self.map (⟨·, true, some .RUNNING, .call⟩)
  | .sleepSet _ _ => self.map (⟨·, true, some .RUNNING, .sleeping⟩)
  | .sleepSwitch _ _ => self.map (⟨·, true, some .SLEEPING, .home⟩)
  | .sleepResume _ => self.map (⟨·, true, some .RUNNING, .home⟩)
  | .yieldAdd _ => self.map (⟨·, true, some .RUNNABLE, .call⟩)
  | .yieldResume => self.map (⟨·, true, some .RUNNING, .home⟩)
  | .wakeRemove _ _ q _ => some ⟨q, false, some .RUNNABLE, .call⟩
  | .wakeAdd _ _ q _ _ => some ⟨q, false, some .RUNNABLE, .call⟩
  | .wakeSkip _ _ q _ => some ⟨q, false, none, .home⟩
  | .killSkip _ q _ => some ⟨q, false, none, .home⟩
  | .killRemove q => some ⟨q, false, some .SLEEPING, .call⟩
  | .killAdd q _ => some ⟨q, false, some .RUNNABLE, .call⟩
  | .killDone q => some ⟨q, false, none, .home⟩
  | .forkret => self.map (⟨·, true, some .RUNNING, .home⟩)
  | .schedGot p => some ⟨p, false, some .RUNNABLE, .runnable⟩
  | .schedRemove p => some ⟨p, false, some .RUNNING, .call⟩
  | .schedBack p => some ⟨p, false, none, .home⟩
  | _ => none

def Frame.locks : Frame → List KLock
  | .code held => held.map .other
  | .forkPid _ _ => [.pidLock]
  | .forkLinked _ _ => [.waitLock]
  | .exitReparent _ _ => [.waitLock]
  | .exitLock _ => [.waitLock]
  | .exitAdd => [.waitLock]
  | .waitScan _ _ _ => [.waitLock]
  | .waitSkip _ _ _ => [.waitLock]
  | .waitFail _ => [.waitLock]
  | .waitFailed _ => [.waitLock]
  | .waitRemove _ _ _ => [.waitLock]
  | .waitAdd _ _ _ => [.waitLock]
  | .waitDone _ _ _ => [.waitLock]
  | _ => []

/-- The lock of its caller that `sleep` has given up. -/
def Frame.gaveUp : Frame → Option KLock
  | .sleepSet _ lk => some lk
  | .sleepSwitch _ lk => some lk
  | .sleepResume lk => some lk
  | .sleepRelock lk => some lk
  | _ => none

def Frame.own (self : Option Slot) (f : Frame) : List KLock :=
  ((f.hold self).map fun h => .proc h.slot).toList ++ f.locks

def heldBy (self : Option Slot) : List Frame → List KLock
  | [] => []
  | f :: rest =>
    f.own self ++
      match f.gaveUp with
      | some lk => (heldBy self rest).erase lk
      | none => heldBy self rest

inductive Event where
  | allocpid (pid : Int)
  | linked (np : Slot) (pid : Int) (p : Slot) (ppid : Int)
  | forked (p : Slot) (pid : Int)
  | exits (p : Slot) (pid status : Int)
  | waited (p np : Slot) (pid status : Int)
  | waitFailed (p np : Slot)
  | slept (p : Slot) (chan : Chan) (lk : KLock)
  | wakes (n : Nat) (chan : Chan)
  | visits (n : Nat) (q : Slot)
  | woken (n : Nat)
  | dispatch (c : Cpu) (p : Slot)
  | switch (c : Cpu) (p : Slot)
  | effect (call : ListCall)
  deriving DecidableEq, Repr

structure Machine where
  ls : ListSys Cpu
  owner : KLock → Option Cpu
  pcb : Slot → Pcb
  parent : Slot → Option Slot
  nextpid : Int
  procCount : Cpu → Nat
  cpuProc : Cpu → Option Slot
  initproc : Option Slot
  cur : Cpu → Option Slot
  stack : Slot → List Frame
  sched : Cpu → List Frame
  log : List Event

namespace Machine

/-- The frames of the thread that a CPU executes, innermost first. -/
def frames (m : Machine) (c : Cpu) : List Frame :=
  match m.cur c with
  | some p => m.stack p
  | none => m.sched c

def held (m : Machine) (c : Cpu) : List KLock := heldBy (m.cur c) (m.frames c)

end Machine

end OsbKernel
